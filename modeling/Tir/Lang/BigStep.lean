import Tir.Lang.Exec

/-!
# Big-step evaluation, and that the frame machine performs it

`evalNode` evaluates one node of a context by recursion along the edges of the graph: the
operands it looks at, in order, then the node; a map or reduce evaluates its body once per lane,
each time in a fresh context. It has no frames and no stack.

`leads_evalNode` says that the machine of `Tir.Lang.Exec`, started on a node frame, does exactly
that and pops the frame, or panics where the evaluation does. Since `evalNode` is total, every
run of the machine ends (`leads_new`).
-/

open List Option Function Nat Relation

namespace Tir.Lang

open Tir.Adt Continuation

variable {V F σ : Type} (fl : Floats F) (g : Graph V F) (symbols : List (Value F)) (backend : Backend σ)

/-! ## The evaluator -/

/-- Evaluates the operands from the `k`-th on that the node looks at. -/
def evalOperands (ev : Nat → Cache F → σ → Option (Cache F × σ)) (kind : SymKind) (node : Nat) :
  Nat → Nat → Cache F → σ → Option (Cache F × σ)
 | 0, _, _, _ => none
 | budget + 1, k, cache, memory =>
  match Continuation.childIndex fl g kind node k cache with
  | none => none
  | some none => some (cache, memory)
  | some (some index) =>
   match (children g node)[index]? with
   | none => none
   | some child =>
    match ev child cache memory with
    | none => none
    | some (cache', memory') =>
     evalOperands ev kind node budget (k + 1) cache' memory'

/-- The value of a node whose operands are cached. -/
def evalFinish (node : Nat) (args : List (Value F)) (cache : Cache F) (memory : σ) : Option (Value F × σ) :=
 match evalReady fl g node symbols cache args with
 | none => none
 | some (.value value) => some (value, memory)
 | some (.submit op accepted) =>
  match backend.accept op memory with
  | none => none
  | some (answer, memory') => (accepted answer).map (·, memory')

def mapLanes (ev : Value F → σ → Option (Value F × σ)) : List (Value F) → σ → Option (List (Value F) × σ)
 | [], memory => some ([], memory)
 | element :: rest, memory =>
  match ev element memory with
  | none => none
  | some (value, memory') =>
   match mapLanes ev rest memory' with
   | none => none
   | some (values, memory'') => some (value :: values, memory'')

def reduceLanes (ev : Value F → σ → Option (Value F × σ)) : Value F → List (Value F) → σ → Option (Value F × σ)
 | acc, [], memory => some (acc, memory)
 | acc, element :: rest, memory =>
  match ev (.iterator [acc, element]) memory with
  | none => none
  | some (value, memory') => reduceLanes ev value rest memory'

/-- The value of a lambda body in a fresh context. -/
def laneValue (ev : Nat → List (Value F) → Cache F → σ → Option (Cache F × σ)) (body : Nat)
  (args : List (Value F)) (binding : Value F) (memory : σ) : Option (Value F × σ) :=
 match ev body (args ++ [binding]) (List.replicate g.len none) memory with
 | none => none
 | some (cache, memory') => (cached cache body).map (·, memory')

/-- The elements of an evaluated iterator operand. -/
def elementsOf (cache : Cache F) (iter : Nat) : Option (List (Value F)) :=
 (cached cache iter).bind Value.asIterator

section Kinds

variable (ev : Nat → List (Value F) → Cache F → σ → Option (Cache F × σ))
 (n : DagNode SymKind (SymPayload V F)) (node : Nat) (args : List (Value F)) (cache : Cache F) (memory : σ)

/-- A map: its iterator operand, then its body once per lane. -/
def evalMap : Option (Cache F × σ) :=
 (n.children[1]?).bind fun body => (n.children[0]?).bind fun iter =>
  (ev iter args cache memory).bind fun r => (elementsOf r.1 iter).bind fun values =>
   (mapLanes (laneValue g ev body args) values r.2).map fun q =>
    (r.1.set node (some (.iterator q.1)), q.2)

/-- A reduce: the first lane is the accumulator, and there has to be one. -/
def evalReduce : Option (Cache F × σ) :=
 (n.children[1]?).bind fun body => (n.children[0]?).bind fun iter =>
  (ev iter args cache memory).bind fun r => (elementsOf r.1 iter).bind fun values =>
   (values.head?).bind fun first =>
    (reduceLanes (laneValue g ev body args) first values.tail r.2).map fun q =>
     (r.1.set node (some q.1), q.2)

/-- Any other node: the operands it looks at, then the node itself. -/
def evalPlain : Option (Cache F × σ) :=
 (evalOperands fl g (fun child => ev child args) n.label node (n.children.length + 3) 0 cache
  memory).bind fun r =>
   (evalFinish fl g symbols backend node args r.1 r.2).map fun q =>
    (r.1.set node (some q.1), q.2)

end Kinds

/-- Evaluates a node in a context; the fuel bounds the depth, which the index of the node
bounds. The result is the context's cache with the node's value in it. -/
def evalNode : Nat → Nat → List (Value F) → Cache F → σ → Option (Cache F × σ)
 | 0, _, _, _, _ => none
 | fuel + 1, node, args, cache, memory =>
  match g.nodes[node]?, cached cache node with
  | none, _ => none
  | some _, some _ => some (cache, memory)
  | some n, none =>
   if n.label = .map then evalMap g (evalNode fuel) n node args cache memory
   else if n.label = .reduce then evalReduce g (evalNode fuel) n node args cache memory
   else evalPlain fl g symbols backend (evalNode fuel) n node args cache memory

/-! ## What an evaluation leaves alone -/

/-- A later cache of the same context: values stay. -/
structure Extends (before after : Cache F) : Prop where
 length : after.length = before.length
 keeps : ∀ j v, cached before j = some v → cached after j = some v

theorem Extends.refl (cache : Cache F) : Extends cache cache := ⟨rfl, fun _ _ h => h⟩

theorem Extends.trans {a b d : Cache F} (h1 : Extends a b) (h2 : Extends b d) : Extends a d :=
 ⟨h2.length.trans h1.length, fun j v h => h2.keeps j v (h1.keeps j v h)⟩

variable {cache cache' : Cache F} {node context : Nat} {memory : σ} {args : List (Value F)}
 {o : Option (Continuation F × σ)} {x y : Continuation F × σ} {contexts : List (EvalContext F)} {cx : EvalContext F}

theorem cached_set_self (h : node < cache.length)
  (value : Option (Value F)) : cached (cache.set node value) node = value := by
 simp [cached, getElem?_set_self h]

theorem cached_set_ne (cache : Cache F) {j : Nat} (h : node ≠ j) (value : Option (Value F)) :
  cached (cache.set node value) j = cached cache j := by
 simp [cached, getElem?_set_ne h]

theorem Extends.set (h : cached cache node = none)
  (value : Option (Value F)) : Extends cache (cache.set node value) := by
 refine ⟨length_set, fun j v hj => ?_⟩
 have hne : node ≠ j := fun heq => by
  grind
 rw [cached_set_ne cache hne]
 exact hj

theorem cached_replicate (n j : Nat) : cached (List.replicate n none : Cache F) j = none := by
 unfold cached
 grind

/-- The child a frame looks at does not change while values are added. -/
theorem childIndex_extends {kind : SymKind} {k : Nat} {before after : Cache F}
  {index : Nat} (hext : Extends before after)
  (h : Continuation.childIndex fl g kind node k before = some (some index)) :
  Continuation.childIndex fl g kind node k after = some (some index) := by
 have hchild : ∀ v, childVal g node 0 before = some v → childVal g node 0 after = some v := by
  intro v hv
  simp only [childVal, bind_eq_bind, bind_eq_some_iff] at hv ⊢
  obtain ⟨child, hc, hv⟩ := hv
  exact ⟨child, hc, hext.keeps child v hv⟩
 unfold Continuation.childIndex at h ⊢
 split at h
 · rename_i hkind
   rw [if_pos hkind]
   match k with
   | 0 => exact h
   | 1 =>
    simp only [map_eq_some_iff, bind_eq_some_iff] at h ⊢
    grind
   | k + 2 => exact h
 grind

theorem children_lt {index child : Nat} (h : (children g node)[index]? = some child) :
  child < node := by
 unfold children at h
 cases hn : g.nodes[node]? with
 | none =>
  rw [hn] at h
  simp at h
 | some n =>
  rw [hn] at h
  exact g.topological node n hn child (mem_of_getElem? h)

/-- An evaluation of node `node`: the cache after it extends the one before, nothing above the
node is touched, and the node has its value. -/
structure Evaluated (node : Nat) (before after : Cache F) : Prop where
 ext : Extends before after
 above : ∀ j, node < j → cached after j = cached before j
 value : ∃ v, cached after node = some v

theorem evalOperands_keeps {ev : Nat → Cache F → σ → Option (Cache F × σ)} {kind : SymKind}
  (hev : ∀ child < node, ∀ cache memory cache' memory', cache.length = g.len →
   ev child cache memory = some (cache', memory') → Evaluated child cache cache')
  {budget k : Nat} {memory' : σ} (hlen : cache.length = g.len)
  (h : evalOperands fl g ev kind node budget k cache memory = some (cache', memory')) :
  Extends cache cache' ∧ ∀ j, node ≤ j → cached cache' j = cached cache j := by
 induction budget generalizing k cache memory with
 | zero => cases h
 | succ budget ih =>
  unfold evalOperands at h
  split at h
  · cases h
  · grind [Extends.refl]
  · split at h
    · cases h
    · rename_i child hchild
      split at h
      · cases h
      · rename_i cache1 memory1 h1
        have hlt := children_lt g hchild
        have hE := hev child hlt cache memory cache1 memory1 hlen h1
        have hrest := ih (hE.ext.length.trans hlen) h
        refine ⟨hE.ext.trans hrest.1, fun j hj => ?_⟩
        rw [hrest.2 j hj, hE.above j (hlt.trans_le hj)]

/-- Setting the node's own value ends its evaluation. -/
theorem Evaluated.ofSet {value : Value F} (hnode : node < cache'.length) (hnone : cached cache node = none)
  (hext : Extends cache cache') (hkeep : ∀ j, node ≤ j → cached cache' j = cached cache j) :
  Evaluated node cache (cache'.set node (some value)) := by
 have hnone' : cached cache' node = none := (hkeep node le_rfl).trans hnone
 refine ⟨hext.trans (Extends.set hnone' _), fun j hj => ?_, value, cached_set_self hnode _⟩
 grind [cached_set_ne]

theorem evalNode_evaluated {fuel : Nat} {memory' : σ} (hlen : cache.length = g.len)
  (h : evalNode fl g symbols backend fuel node args cache memory = some (cache', memory')) :
  Evaluated node cache cache' := by
 induction fuel generalizing node args cache memory cache' memory' with
 | zero => cases h
 | succ fuel ih =>
  unfold evalNode at h
  split at h
  · cases h
  · -- The node has its value already.
    rename_i n v hn hv
    cases h
    exact ⟨Extends.refl _, fun _ _ => rfl, v, hv⟩
  · rename_i n hn hnone
    have hnode : node < cache.length := by
     rw [hlen]
     exact (List.getElem?_eq_some_iff.1 hn).1
    have hiter : ∀ iter r, n.children[0]? = some iter →
      evalNode fl g symbols backend fuel iter args cache memory = some r →
      ∀ value, Evaluated node cache (r.1.set node (some value)) := by
     intro iter r hi h1 value
     have hlt : iter < node := g.topological node n hn iter (mem_of_getElem? hi)
     have hE := ih hlen h1
     exact Evaluated.ofSet (hE.ext.length ▸ hnode) hnone hE.ext
      fun j hj => hE.above j (hlt.trans_le hj)
    split at h
    · simp only [evalMap, bind_eq_some_iff, map_eq_some_iff] at h
      grind
    · split at h
      · simp only [evalReduce, bind_eq_some_iff, map_eq_some_iff] at h
        grind
      · simp only [evalPlain, bind_eq_some_iff, map_eq_some_iff] at h
        obtain ⟨r, h1, q, -, hq⟩ := h
        cases hq
        obtain ⟨hext, hkeep⟩ := evalOperands_keeps fl g
         (fun child _ cache memory cache' memory' hlen hc => ih hlen hc) hlen h1
        exact Evaluated.ofSet (hext.length ▸ hnode) hnone hext hkeep

/-! ## The machine, one accepted turn after the other -/

/-- One turn of the loop with the backend accepting; `none` is a panic. -/
def turn (x : Continuation F × σ) : Option (Continuation F × σ) :=
 match x.1.step fl g symbols with
 | .panic => none
 | .next after => some (after, x.2)
 | .submit op reply =>
  match backend.accept op x.2 with
  | none => none
  | some (answer, memory) => (reply answer).map (·, memory)

/-- Any number of accepted turns. -/
def Turns : Continuation F × σ → Continuation F × σ → Prop :=
 ReflTransGen fun x y => turn fl g symbols backend x = some y

/-- The machine gets to `y`, or to a panic if there is no `y`. -/
def Leads (x : Continuation F × σ) : Option (Continuation F × σ) → Prop
 | some y => Turns fl g symbols backend x y
 | none => ∃ y, Turns fl g symbols backend x y ∧ y.1.stack ≠ [] ∧ turn fl g symbols backend y = none

variable {fl g symbols backend}

theorem Turns.leads (h : Turns fl g symbols backend x y) (hy : Leads fl g symbols backend y o) :
  Leads fl g symbols backend x o := by
 cases o with
 | some z => exact ReflTransGen.trans h hy
 | none =>
  obtain ⟨z, hz, hstuck⟩ := hy
  exact ⟨z, ReflTransGen.trans h hz, hstuck⟩

theorem Leads.step (h : turn fl g symbols backend x = some y) (hy : Leads fl g symbols backend y o) :
  Leads fl g symbols backend x o :=
 Turns.leads (ReflTransGen.single h) hy

theorem Leads.stuck (hne : x.1.stack ≠ [])
  (h : turn fl g symbols backend x = none) : Leads fl g symbols backend x none :=
 ⟨x, ReflTransGen.refl, hne, h⟩

theorem Leads.ofTurn (hne : x.1.stack ≠ []) (h : turn fl g symbols backend x = o) :
  Leads fl g symbols backend x o := by
 cases o with
 | some y => exact ReflTransGen.single h
 | none => exact Leads.stuck hne h

theorem Leads.now (h : turn fl g symbols backend x = some y) : Leads fl g symbols backend x (some y) :=
 ReflTransGen.single h

/-- A part of a run that leads to some state or to a panic, followed by the rest of it. -/
theorem Leads.bind {α : Type} {o : Option α} {f : α → Continuation F × σ} {k : α → Option (Continuation F × σ)}
  (h : Leads fl g symbols backend x (o.map f)) (hk : ∀ a, o = some a → Leads fl g symbols backend (f a) (k a)) :
  Leads fl g symbols backend x (o.bind k) := by
 cases o with
 | none => exact h
 | some a => exact Turns.leads h (hk a rfl)

section

variable (h : contexts[context]? = some cx)

include h

theorem setCache_eq (node : Nat) (value : Option (Value F)) : setCache contexts context node value =
   contexts.set context { cx with cache := cx.cache.set node value } := by
 apply ext_getElem?
 intro i
 unfold setCache
 rw [getElem?_modify, getElem?_set]
 by_cases hi : context = i
 · grind
 grind

theorem getElem?_set_context (cx' : EvalContext F) : (contexts.set context cx')[context]? = some cx' :=
 getElem?_set_self (List.getElem?_eq_some_iff.1 h).1

theorem set_context_self : contexts.set context cx = contexts := by
 apply ext_getElem?
 intro i
 by_cases hi : context = i
 · rw [← hi, getElem?_set_context h, h]
 · rw [getElem?_set_ne hi]

end

theorem children_eq {n : DagNode SymKind (SymPayload V F)}
  (hn : g.nodes[node]? = some n) : children g node = n.children := by
 unfold children
 rw [hn]

/-! ## Turns of a node frame -/

section Node

variable {node context : Nat} {n : DagNode SymKind (SymPayload V F)}
 {contexts : List (EvalContext F)} {cx : EvalContext F} {root : Nat} {rest : List (EvalFrame F)} {memory : σ}

section

variable (hcx : contexts[context]? = some cx) (hn : g.nodes[node]? = some n)

include hcx hn

theorem turn_cached {v : Value F} (hv : cached cx.cache node = some v) (k : Nat) :
  turn fl g symbols backend (⟨root, contexts, .node node context k :: rest⟩, memory) =
   some (⟨root, contexts, rest⟩, memory) := by
 simp [turn, Continuation.step, Continuation.stepNode, hcx, hn, hv]

/-- The turn of a node frame that is neither cached nor a lambda, by the child it looks at. -/
theorem step_plain (hnone : cached cx.cache node = none) (hmap : n.label ≠ .map) (hreduce : n.label ≠ .reduce)
  (k : Nat) : (⟨root, contexts, .node node context k :: rest⟩ : Continuation F).step fl g symbols =
    Continuation.stepOperands fl g symbols root contexts rest node context k n.label cx := by
 simp [Continuation.step, Continuation.stepNode, hcx, hn, hnone, hmap, hreduce]

end

variable {k : Nat}

section

variable (hcx : contexts[context]? = some cx) (hn : g.nodes[node]? = some n) (hnone : cached cx.cache node = none)
  (hmap : n.label ≠ .map) (hreduce : n.label ≠ .reduce)

include hcx hn hnone hmap hreduce

theorem turn_finish (hk : Continuation.childIndex fl g n.label node k cx.cache = some none) :
  turn fl g symbols backend (⟨root, contexts, .node node context k :: rest⟩, memory) =
   (evalFinish fl g symbols backend node cx.args cx.cache memory).map fun r =>
    (⟨root, contexts.set context { cx with cache := cx.cache.set node (some r.1) }, rest⟩,
      r.2) := by
 simp only [turn, step_plain hcx hn hnone hmap hreduce, Continuation.stepOperands, hk,
  Continuation.finishNode, evalFinish]
 cases evalReady fl g node symbols cx.cache cx.args with
 | none => rfl
 | some ready =>
  cases ready with
  | value v =>
   simp [setCache_eq hcx]
  | submit op accepted =>
   simp only
   cases backend.accept op memory with
   | none => rfl
   | some answer =>
    simp only [Option.map_map]
    cases accepted answer.1 with
    | none => rfl
    | some v => grind [setCache_eq]

theorem turn_noIndex (hk : Continuation.childIndex fl g n.label node k cx.cache = none) :
  turn fl g symbols backend (⟨root, contexts, .node node context k :: rest⟩, memory) = none := by
 simp [turn, step_plain hcx hn hnone hmap hreduce, stepOperands, hk]

end

section Child

variable {k index : Nat} (hcx : contexts[context]? = some cx) (hn : g.nodes[node]? = some n)
 (hnone : cached cx.cache node = none) (hmap : n.label ≠ .map) (hreduce : n.label ≠ .reduce)
 (hk : Continuation.childIndex fl g n.label node k cx.cache = some (some index))

include hcx hn hnone hmap hreduce hk

theorem turn_noChild (hchild : (children g node)[index]? = none) :
  turn fl g symbols backend (⟨root, contexts, .node node context k :: rest⟩, memory) = none := by
 simp [turn, step_plain hcx hn hnone hmap hreduce, stepOperands, hk, hchild]

variable {child : Nat} (hchild : (children g node)[index]? = some child)

include hchild

theorem turn_advance {v : Value F} (hv : cached cx.cache child = some v) :
  turn fl g symbols backend (⟨root, contexts, .node node context k :: rest⟩, memory) =
   some (⟨root, contexts, .node node context (k + 1) :: rest⟩, memory) := by
 simp [turn, step_plain hcx hn hnone hmap hreduce, stepOperands, hk, hchild, hv]

theorem turn_push (hv : cached cx.cache child = none) :
  turn fl g symbols backend (⟨root, contexts, .node node context k :: rest⟩, memory) =
   some (⟨root, contexts, .node child context 0 :: .node node context k :: rest⟩, memory) := by
 simp [turn, step_plain hcx hn hnone hmap hreduce, stepOperands, hk, hchild, hv]

end Child

/-- A looked-at child is among the first, or one of the two a choice looks at. -/
theorem childIndex_bound {kind : SymKind} {index : Nat} {cache : Cache F}
  (h : Continuation.childIndex fl g kind node k cache = some (some index)) :
  k < (children g node).length + 2 := by
 unfold childIndex at h
 split at h
 · grind
 grind

/-- What the machine does from a fresh node frame, as the induction over nodes uses it. -/
def NodeLeads (fl : Floats F) (g : Graph V F) (symbols : List (Value F)) (backend : Backend σ)
  (ev : List (Value F) → Cache F → σ → Option (Cache F × σ)) (node : Nat) : Prop :=
 ∀ (root : Nat) (contexts : List (EvalContext F)) (context : Nat) (cx : EvalContext F)
  (rest : List (EvalFrame F)) (memory : σ),
  contexts[context]? = some cx → cx.cache.length = g.len →
  Leads fl g symbols backend (⟨root, contexts, .node node context 0 :: rest⟩, memory)
   ((ev cx.args cx.cache memory).map fun r =>
     (⟨root, contexts.set context { cx with cache := r.1 }, rest⟩, r.2))

/-- The operands of a node from the `k`-th on, then the node itself. The budget of
`evalOperands` never runs out: a frame looks at no child past the last but one choice. -/
theorem leads_evalOperands {ev : Nat → List (Value F) → Cache F → σ → Option (Cache F × σ)}
  (hleads : ∀ child < node, NodeLeads fl g symbols backend (ev child) child)
  (hev : ∀ child args cache memory cache' memory', cache.length = g.len →
   ev child args cache memory = some (cache', memory') → Evaluated child cache cache')
  (hskip : ∀ child < node, ∀ args cache memory v, cached cache child = some v →
   ev child args cache memory = some (cache, memory))
  (hn : g.nodes[node]? = some n) (hmap : n.label ≠ .map) (hreduce : n.label ≠ .reduce)
  (budget k : Nat) (hk : k ≤ n.children.length + 2) (hb : budget + k = n.children.length + 3)
  (hcx : contexts[context]? = some cx) (hlen : cx.cache.length = g.len) (hnone : cached cx.cache node = none) :
  Leads fl g symbols backend (⟨root, contexts, .node node context k :: rest⟩, memory)
   ((evalOperands fl g (fun child => ev child cx.args) n.label node budget k cx.cache memory).bind fun r =>
      (evalFinish fl g symbols backend node cx.args r.1 r.2).map fun v =>
       (⟨root, contexts.set context { cx with cache := r.1.set node (some v.1) }, rest⟩,
         v.2)) := by
 induction budget generalizing k contexts cx memory with
 | zero => omega
 | succ budget ih =>
  unfold evalOperands
  cases hidx : childIndex fl g n.label node k cx.cache with
  | none => exact Leads.stuck (by simp) (turn_noIndex hcx hn hnone hmap hreduce hidx)
  | some looked =>
   cases looked with
   | none =>
    -- The operands are ready: one turn evaluates the node.
    exact Leads.ofTurn (by simp) (turn_finish hcx hn hnone hmap hreduce hidx)
   | some index =>
    have hbound := childIndex_bound hidx
    rw [children_eq hn] at hbound
    cases hchild : (children g node)[index]? with
    | none =>
     simp only [hchild]
     exact Leads.stuck (by simp) (turn_noChild hcx hn hnone hmap hreduce hidx hchild)
    | some child =>
     have hlt := children_lt g hchild
     simp only [hchild]
     cases hcached : cached cx.cache child with
     | some v =>
      rw [hskip child hlt cx.args cx.cache memory v hcached]
      exact Leads.step (turn_advance hcx hn hnone hmap hreduce hidx hchild hcached)
       (ih (k + 1) (by omega) (by omega) hcx hlen hnone)
     | none =>
      apply Leads.step (turn_push hcx hn hnone hmap hreduce hidx hchild hcached)
      have hrun := hleads child hlt root contexts context cx
       (.node node context k :: rest) memory hcx hlen
      cases hr : ev child cx.args cx.cache memory with
      | none =>
       grind
      | some r =>
       rw [hr] at hrun
       -- Back on the frame of the node, the child now has its value.
       have hE := hev child cx.args cx.cache memory r.1 r.2 hlen hr
       obtain ⟨v, hv⟩ := hE.value
       have hcx' := getElem?_set_context hcx { cx with cache := r.1 }
       have hnone' : cached r.1 node = none := (hE.above node hlt).trans hnone
       have hidx' := childIndex_extends fl g hE.ext hidx
       have hnext := @ih _ _ r.2 (k + 1) (by omega) (by omega) hcx'
        (hE.ext.length.trans hlen) hnone'
       simp only [set_set] at hnext
       exact Turns.leads hrun (Leads.step
        (turn_advance hcx' hn hnone' hmap hreduce hidx' hchild hv) hnext)

end Node

/-! ## Lanes -/

section Lanes

variable {ev : Nat → List (Value F) → Cache F → σ → Option (Cache F × σ)} {body : Nat}
 (hbody : NodeLeads fl g symbols backend (ev body) body)
 (hev : ∀ args cache memory cache' memory', cache.length = g.len →
  ev body args cache memory = some (cache', memory') → Evaluated body cache cache')
 {contexts : List (EvalContext F)} {context : Nat} {cx : EvalContext F}
 (hcx : contexts[context]? = some cx) {node root : Nat} {rest : List (EvalFrame F)}

include hbody hev

variable {memory : σ} {elements : Option (List (Value F))} {laneContext : Option Nat}

/-- One lane: the body in a context of its own, then the frame that waits for it. -/
theorem leads_lane {args : List (Value F)} {binding : Value F} {frame : EvalFrame F}
  {k : Value F × σ → Option (Continuation F × σ)} (hk : ∀ cache v memory', cached cache body = some v →
   Leads fl g symbols backend
    (⟨root, contexts ++ [⟨cache, args ++ [binding]⟩], frame :: rest⟩, memory') (k (v, memory'))) :
  Leads fl g symbols backend (⟨root, contexts ++ [⟨List.replicate g.len none, args ++ [binding]⟩],
     .node body contexts.length 0 :: frame :: rest⟩, memory)
   ((laneValue g ev body args binding memory).bind k) := by
 have hget : (contexts ++ [(⟨List.replicate g.len none, args ++ [binding]⟩ : EvalContext F)])[
   contexts.length]? = some ⟨List.replicate g.len none, args ++ [binding]⟩ := by simp
 have hrun := hbody root _ contexts.length _ (frame :: rest) memory hget (by simp)
 unfold laneValue
 cases hr : ev body (args ++ [binding]) (List.replicate g.len none) memory with
 | none =>
  grind
 | some r =>
  rw [hr] at hrun
  obtain ⟨v, hv⟩ := (hev _ _ _ r.1 r.2 (by simp) hr).value
  have hset : (contexts ++ [(⟨List.replicate g.len none, args ++ [binding]⟩ : EvalContext F)]).set
    contexts.length ⟨r.1, args ++ [binding]⟩ = contexts ++ [⟨r.1, args ++ [binding]⟩] := by
   simp
  rw [map_some, hset] at hrun
  simp only [hv, map_some, bind_some]
  exact Turns.leads hrun (hk r.1 v r.2 hv)

omit hbody hev in
theorem turn_map {lane : Nat} {results : List (Value F)} : turn fl g symbols backend
    (⟨root, contexts, .map node context body elements lane laneContext results :: rest⟩, memory) =
   (Continuation.stepMap g root contexts rest node context body elements lane laneContext
    results).map (·, memory) := by
 simp only [turn, step]
 cases stepMap g root contexts rest node context body elements lane laneContext
  results <;> rfl

omit hbody hev in
theorem turn_reduce {lane : Nat} {accumulator : Option (Value F)} : turn fl g symbols backend
    (⟨root, contexts, .reduce node context body elements lane laneContext accumulator :: rest⟩, memory) =
   (Continuation.stepReduce g root contexts rest node context body elements lane laneContext
    accumulator).map (·, memory) := by
 simp only [turn, step]
 cases stepReduce g root contexts rest node context body elements lane laneContext
  accumulator <;> rfl

include hcx

omit hbody hev in
theorem cacheOf_eq : cacheOf contexts context = some cx.cache := by
 unfold cacheOf
 rw [hcx]
 rfl

/-- The lanes of a map from `lane` on. -/
theorem leads_mapLanes (values pending : List (Value F)) {lane : Nat} {results : List (Value F)}
  {memory : σ} {elements : Option (List (Value F))} (hlane : lane + pending.length = values.length)
  (hdrop : values.drop lane = pending)
  (hels : Continuation.stepMap g root contexts rest node context body elements lane none results =
   Continuation.stepMapLanes g root contexts rest node context body values lane none results) :
  Leads fl g symbols backend (⟨root, contexts, .map node context body elements lane none results :: rest⟩, memory)
   ((mapLanes (laneValue g ev body cx.args) pending memory).map fun r =>
     (⟨root, contexts.set context
       { cx with cache := cx.cache.set node (some (.iterator (results ++ r.1))) }, rest⟩, r.2)) := by
 induction pending generalizing lane results memory elements with
 | nil =>
  have hend : lane = values.length := by simpa using hlane
  apply Leads.ofTurn (by simp)
  rw [turn_map, hels]
  simp [stepMapLanes, if_pos hend, cacheOf_eq hcx, setCache_eq hcx, mapLanes]
 | cons element pending ih =>
  have hlt : lane ≠ values.length := by
   grind
  have helem : values[lane]? = some element := by
   have := congrArg List.head? hdrop
   simpa [head?_drop] using this
  have hdrop' : values.drop (lane + 1) = pending := by
   rw [← tail_drop, hdrop]
   rfl
  have hstart : turn fl g symbols backend
    (⟨root, contexts, .map node context body elements lane none results :: rest⟩, memory) =
    some (⟨root, contexts ++ [⟨List.replicate g.len none, cx.args ++ [element]⟩],
     .node body contexts.length 0 ::
      .map node context body (some values) lane (some contexts.length) results :: rest⟩,
     memory) := by
   rw [turn_map, hels]
   simp [stepMapLanes, if_neg hlt, helem, newLambdaContext, hcx]
  apply Leads.step hstart
  have hgoal : ((mapLanes (laneValue g ev body cx.args) (element :: pending) memory).map fun r =>
    ((⟨root, contexts.set context
      { cx with cache := cx.cache.set node (some (.iterator (results ++ r.1))) }, rest⟩ :
        Continuation F), r.2)) =
    (laneValue g ev body cx.args element memory).bind fun r =>
     (mapLanes (laneValue g ev body cx.args) pending r.2).map fun q =>
      (⟨root, contexts.set context
        { cx with cache := cx.cache.set node (some (.iterator ((results ++ [r.1]) ++ q.1))) },
        rest⟩, q.2) := by
   simp only [mapLanes]
   grind
  rw [hgoal]
  refine leads_lane hbody hev fun cache v memory' hv => ?_
  -- The frame takes the lane's value and drops the lane's context.
  refine Leads.step ?_ (@ih (lane + 1) (results ++ [v]) memory' (some values)
   (by simp only [length_cons] at hlane; omega) hdrop' rfl)
  rw [turn_map]
  simp [stepMap, stepMapLanes, hlt, cacheOf, hv]

/-- The lanes of a reduce from `lane` on. -/
theorem leads_reduceLanes (values pending : List (Value F)) (lane : Nat) (acc : Value F)
  {start : Nat} {initial : Option (Value F)} {memory : σ} {elements : Option (List (Value F))}
  (hlane : lane + pending.length = values.length) (hdrop : values.drop lane = pending)
  (hels : Continuation.stepReduce g root contexts rest node context body elements start none initial =
   Continuation.stepReduceLanes g root contexts rest node context body values lane none (some acc)) :
  Leads fl g symbols backend (⟨root, contexts, .reduce node context body elements start none initial :: rest⟩, memory)
   ((reduceLanes (laneValue g ev body cx.args) acc pending memory).map fun r =>
     (⟨root, contexts.set context { cx with cache := cx.cache.set node (some r.1) }, rest⟩,
       r.2)) := by
 induction pending generalizing lane acc start initial memory elements with
 | nil =>
  have hend : lane = values.length := by simpa using hlane
  apply Leads.ofTurn (by simp)
  rw [turn_reduce, hels]
  simp [stepReduceLanes, if_pos hend, cacheOf_eq hcx, setCache_eq hcx, reduceLanes]
 | cons element pending ih =>
  have hlt : lane ≠ values.length := by
   grind
  have helem : values[lane]? = some element := by
   have := congrArg List.head? hdrop
   simpa [head?_drop] using this
  have hdrop' : values.drop (lane + 1) = pending := by
   rw [← tail_drop, hdrop]
   rfl
  have hstart : turn fl g symbols backend
    (⟨root, contexts, .reduce node context body elements start none initial :: rest⟩,
      memory) =
    some (⟨root,
     contexts ++ [⟨List.replicate g.len none, cx.args ++ [.iterator [acc, element]]⟩],
     .node body contexts.length 0 ::
      .reduce node context body (some values) lane (some contexts.length) (some acc) ::
       rest⟩, memory) := by
   rw [turn_reduce, hels]
   simp [stepReduceLanes, if_neg hlt, helem, newLambdaContext, hcx]
  apply Leads.step hstart
  have hgoal : ((reduceLanes (laneValue g ev body cx.args) acc (element :: pending) memory).map
    fun r => ((⟨root, contexts.set context
     { cx with cache := cx.cache.set node (some r.1) }, rest⟩ : Continuation F), r.2)) =
    (laneValue g ev body cx.args (.iterator [acc, element]) memory).bind fun r =>
     (reduceLanes (laneValue g ev body cx.args) r.1 pending r.2).map fun q =>
      (⟨root, contexts.set context { cx with cache := cx.cache.set node (some q.1) },
        rest⟩, q.2) := by
   simp only [reduceLanes]
   grind
  rw [hgoal]
  refine leads_lane hbody hev fun cache v memory' hv => ?_
  -- The frame takes the lane's value as the accumulator and drops the lane's context.
  refine Leads.step ?_ (@ih (lane + 1) v (lane + 1) (some v) memory' (some values)
   (by simp only [length_cons] at hlane; omega) hdrop' rfl)
  rw [turn_reduce]
  simp [stepReduce, stepReduceLanes, hlt, cacheOf, hv]

end Lanes

/-! ## The machine performs the evaluation -/

section Lambda

variable {node context : Nat} {n : DagNode SymKind (SymPayload V F)}
 {contexts : List (EvalContext F)} {cx : EvalContext F} {root iter : Nat} {rest : List (EvalFrame F)} {memory : σ}

section

variable (hcx : contexts[context]? = some cx) (hn : g.nodes[node]? = some n)

include hcx hn

theorem turn_toMap (hnone : cached cx.cache node = none) (hmap : n.label = .map) :
  turn fl g symbols backend (⟨root, contexts, .node node context 0 :: rest⟩, memory) = (n.children[1]?).map fun body =>
    (⟨root, contexts, .map node context body none 0 none [] :: rest⟩, memory) := by
 simp only [turn, step, stepNode, hcx, hn, hnone, Option.isSome_none,
  Bool.false_eq_true, if_false, hmap, and_self, if_true]
 cases n.children[1]? <;> rfl

theorem turn_toReduce (hnone : cached cx.cache node = none) (hreduce : n.label = .reduce) :
  turn fl g symbols backend (⟨root, contexts, .node node context 0 :: rest⟩, memory) = (n.children[1]?).map fun body =>
    (⟨root, contexts, .reduce node context body none 0 none none :: rest⟩, memory) := by
 simp only [turn, step, stepNode, hcx, hn, hnone, Option.isSome_none,
  Bool.false_eq_true, if_false, hreduce, reduceCtorEq, false_and, and_self, if_true]
 cases n.children[1]? <;> rfl

theorem iteratorOf_pending (hi : n.children[0]? = some iter) (hv : cached cx.cache iter = none) :
  Continuation.iteratorOf g contexts node context = some (iter, none) := by
 simp [iteratorOf, children_eq hn, hi, cacheOf_eq hcx, hv]

theorem iteratorOf_ready (hi : n.children[0]? = some iter) {v : Value F} (hv : cached cx.cache iter = some v) :
  Continuation.iteratorOf g contexts node context =
   (elementsOf cx.cache iter).map fun values => (iter, some values) := by
 simp only [iteratorOf, children_eq hn, hi, cacheOf_eq hcx, hv, elementsOf,
  bind_eq_bind, bind_some]
 cases v.asIterator <;> rfl

end

/-- A lambda frame first has its iterator operand evaluated. -/
theorem leads_iter {ev : List (Value F) → Cache F → σ → Option (Cache F × σ)}
  {frame : EvalFrame F} {k : Cache F × σ → Option (Continuation F × σ)}
  (hcx : contexts[context]? = some cx) (hlen : cx.cache.length = g.len)
  (hleads : NodeLeads fl g symbols backend ev iter)
  (hev : ∀ cache' memory', ev cx.args cx.cache memory = some (cache', memory') → Evaluated iter cx.cache cache')
  (hskip : ∀ v, cached cx.cache iter = some v → ev cx.args cx.cache memory = some (cx.cache, memory))
  (hpush : cached cx.cache iter = none → turn fl g symbols backend (⟨root, contexts, frame :: rest⟩, memory) =
    some (⟨root, contexts, .node iter context 0 :: frame :: rest⟩, memory))
  (hk : ∀ cache memory' v, cached cache iter = some v → Leads fl g symbols backend
    (⟨root, contexts.set context { cx with cache := cache }, frame :: rest⟩, memory')
    (k (cache, memory'))) :
  Leads fl g symbols backend (⟨root, contexts, frame :: rest⟩, memory)
   ((ev cx.args cx.cache memory).bind k) := by
 cases hcached : cached cx.cache iter with
 | some v =>
  rw [hskip v hcached, bind_some]
  have hrun := hk cx.cache memory v hcached
  rw [set_context_self hcx] at hrun
  exact hrun
 | none =>
  apply Leads.step (hpush hcached)
  have hrun := hleads root contexts context cx (frame :: rest) memory hcx hlen
  refine Leads.bind hrun fun r hr => ?_
  obtain ⟨v, hv⟩ := (hev r.1 r.2 hr).value
  exact hk r.1 r.2 v hv

variable {ev : Nat → List (Value F) → Cache F → σ → Option (Cache F × σ)}
 (hcx : contexts[context]? = some cx) (hlen : cx.cache.length = g.len)
 (hn : g.nodes[node]? = some n) (hnone : cached cx.cache node = none)
 (hleads : ∀ child < node, NodeLeads fl g symbols backend (ev child) child)
 (hev : ∀ child args cache memory cache' memory', cache.length = g.len →
  ev child args cache memory = some (cache', memory') → Evaluated child cache cache')
 (hskip : ∀ child < node, ∀ args cache memory v, cached cache child = some v →
  ev child args cache memory = some (cache, memory))

include hcx hlen hn hnone hleads hev hskip

theorem leads_map (hmap : n.label = .map) :
  Leads fl g symbols backend (⟨root, contexts, .node node context 0 :: rest⟩, memory)
   ((evalMap g ev n node cx.args cx.cache memory).map fun r =>
     (⟨root, contexts.set context { cx with cache := r.1 }, rest⟩, r.2)) := by
 rw [evalMap, Option.map_bind]
 refine Leads.bind (Leads.ofTurn (by simp) (turn_toMap hcx hn hnone hmap)) fun body hb => ?_
 have hbody := hleads body (g.topological node n hn body (mem_of_getElem? hb))
 simp only [comp_apply, Option.map_bind]
 cases hi : n.children[0]? with
 | none =>
  grind
 | some iter =>
  have hlt : iter < node := g.topological node n hn iter (mem_of_getElem? hi)
  refine leads_iter hcx hlen (hleads iter hlt) (fun cache' memory' h => hev _ _ _ _ _ _ hlen h)
   (hskip iter hlt _ _ _) (fun hv => ?_) (fun cache memory' v hv => ?_)
  · rw [turn_map]
    simp [stepMap, iteratorOf_pending hcx hn hi hv]
  · have hcx' := getElem?_set_context hcx { cx with cache := cache }
    have hready := iteratorOf_ready hcx' hn hi hv
    cases helems : elementsOf cache iter with
    | none =>
     apply Leads.stuck (by simp)
     rw [turn_map]
     simp [stepMap, hready, helems]
    | some values =>
     simp only [bind_some, Option.map_map, comp_def]
     have hrun : Leads fl g symbols backend
       (⟨root, contexts.set context ⟨cache, cx.args⟩,
         .map node context body none 0 none [] :: rest⟩, memory') _ :=
      leads_mapLanes hbody (hev body) hcx' values values (by simp) rfl (by
       simp only [stepMap, hready, helems, map_some,
        bind_eq_bind, bind_some])
     simpa only [set_set, nil_append] using hrun

theorem leads_reduce (hreduce : n.label = .reduce) :
  Leads fl g symbols backend (⟨root, contexts, .node node context 0 :: rest⟩, memory)
   ((evalReduce g ev n node cx.args cx.cache memory).map fun r =>
     (⟨root, contexts.set context { cx with cache := r.1 }, rest⟩, r.2)) := by
 rw [evalReduce, Option.map_bind]
 refine Leads.bind (Leads.ofTurn (by simp) (turn_toReduce hcx hn hnone hreduce)) fun body hb => ?_
 have hbody := hleads body (g.topological node n hn body (mem_of_getElem? hb))
 simp only [comp_apply, Option.map_bind]
 cases hi : n.children[0]? with
 | none =>
  grind
 | some iter =>
  have hlt : iter < node := g.topological node n hn iter (mem_of_getElem? hi)
  refine leads_iter hcx hlen (hleads iter hlt) (fun cache' memory' h => hev _ _ _ _ _ _ hlen h)
   (hskip iter hlt _ _ _) (fun hv => ?_) (fun cache memory' v hv => ?_)
  · rw [turn_reduce]
    simp [stepReduce, iteratorOf_pending hcx hn hi hv]
  · have hcx' := getElem?_set_context hcx { cx with cache := cache }
    have hready := iteratorOf_ready hcx' hn hi hv
    cases helems : elementsOf cache iter with
    | none =>
     apply Leads.stuck (by simp)
     rw [turn_reduce]
     simp [stepReduce, hready, helems]
    | some values =>
     cases values with
     | nil =>
      apply Leads.stuck (by simp)
      rw [turn_reduce]
      simp [stepReduce, hready, helems]
     | cons first values =>
      simp only [bind_some, Option.map_map, comp_def, head?_cons,
       tail_cons]
      have hrun : Leads fl g symbols backend
        (⟨root, contexts.set context ⟨cache, cx.args⟩,
          .reduce node context body none 0 none none :: rest⟩, memory') _ :=
       leads_reduceLanes hbody (hev body) hcx' (first :: values) values 1 first
        (by simp [add_comm]) rfl (by
         simp only [stepReduce, hready, helems, map_some,
          bind_eq_bind, bind_some, head?_cons])
      simpa only [set_set] using hrun

end Lambda

theorem evalNode_skip {fuel : Nat} (hfuel : 0 < fuel) (hnode : node < g.len) {v : Value F}
  (h : cached cache node = some v) :
  evalNode fl g symbols backend fuel node args cache memory = some (cache, memory) := by
 obtain ⟨fuel, rfl⟩ := exists_eq_succ_of_ne_zero (ne_of_gt hfuel)
 unfold evalNode
 rw [getElem?_eq_getElem hnode, h]

/-- The machine started on a node frame evaluates the node and pops the frame; it panics where
the evaluation does. -/
theorem leads_evalNode (fuel node : Nat) (hfuel : node < fuel) (hnode : node < g.len) :
  NodeLeads fl g symbols backend (evalNode fl g symbols backend fuel node) node := by
 induction fuel generalizing node with
 | zero => omega
 | succ fuel ih =>
  intro root contexts context cx rest memory hcx hlen
  obtain ⟨n, hn⟩ : ∃ n, g.nodes[node]? = some n := ⟨_, getElem?_eq_getElem hnode⟩
  have hleads : ∀ child < node,
    NodeLeads fl g symbols backend (evalNode fl g symbols backend fuel child) child :=
   fun child hlt => ih child (by omega) (by omega)
  have hev : ∀ child args cache memory cache' memory', cache.length = g.len →
    evalNode fl g symbols backend fuel child args cache memory = some (cache', memory') →
    Evaluated child cache cache' :=
   fun child args cache memory cache' memory' hl h =>
    evalNode_evaluated fl g symbols backend hl h
  have hskip : ∀ child < node, ∀ args cache memory v, cached cache child = some v →
    evalNode fl g symbols backend fuel child args cache memory = some (cache, memory) :=
   fun child hlt args cache memory v h => evalNode_skip (by omega) (by omega) h
  cases hcached : cached cx.cache node with
  | some v =>
   rw [evalNode_skip (succ_pos fuel) hnode hcached, map_some,
    set_context_self hcx]
   exact Leads.now (turn_cached hcx hn hcached 0)
  | none =>
   unfold evalNode
   simp only [hcached, hn]
   by_cases hmap : n.label = .map
   · grind [leads_map]
   · rw [if_neg hmap]
     by_cases hreduce : n.label = .reduce
     · grind [leads_reduce]
     · rw [if_neg hreduce]
       rw [evalPlain, Option.map_bind]
       simp only [comp_def, Option.map_map]
       exact leads_evalOperands hleads hev hskip hn hmap hreduce (n.children.length + 3) 0
        (by omega) (by omega) hcx hlen hcached

/-- Every run of the machine ends: with an empty stack and the root's value, or in a panic. -/
theorem leads_new {cont : Continuation F} (h : Continuation.new g = some cont) (memory : σ) :
  ∃ o : Option (Continuation F × σ), Leads fl g symbols backend (cont, memory) o ∧
   ∀ y, o = some y → y.1.stack = [] ∧ (y.1.rootValue).isSome := by
 unfold new at h
 rw [map_eq_some_iff] at h
 obtain ⟨root, hroot, hcont⟩ := h
 cases hcont
 have hlen := Dag.root_eq_some hroot
 have hrun : Leads fl g symbols backend _ _ :=
  leads_evalNode g.len root (by omega) (by omega) root [⟨List.replicate g.len none, []⟩] 0
   ⟨List.replicate g.len none, []⟩ [] memory rfl (by simp)
 refine ⟨_, hrun, ?_⟩
 intro y hy
 rw [map_eq_some_iff] at hy
 obtain ⟨r, hr, hy⟩ := hy
 cases hy
 obtain ⟨v, hv⟩ := (evalNode_evaluated fl g symbols backend (by simp) hr).value
 exact ⟨rfl, by simp [rootValue, cacheOf, hv]⟩

end Tir.Lang
