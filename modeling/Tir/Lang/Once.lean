import Tir.Lang.BigStep

/-!
# Every effect is accepted once per context

A run of the machine is observed with a log of its accepted operations. Each context gets a
serial number of its own when it is created, so that the lanes of a map, which reuse the same
index one after the other, stay apart in the log (`Tracked`). Nothing in the machine reads the
log or the serials.

`Reached` collects the states any run goes through, rejections included. `Reached.once` shows in
each of them: no context has an operation accepted twice for one node; a node with an effect
has its value exactly when its operation was accepted; and what has a value has all the
operands it looks at, so no effect was passed over.
-/

open List Option Nat

namespace Tir.Lang

open Tir.Adt

variable {V F σ : Type} {fl : Floats F} {g : Graph V F} {symbols : List (Value F)} {backend : Backend σ}

/-! ## Observed runs -/

/-- An accepted operation, with the serial number of its context and its node. -/
structure Accepted where
 context : Nat
 node : Nat
 op : MemoryOp

def Accepted.key (e : Accepted) : Nat × Nat := (e.context, e.node)

/-- A machine state with its memory, the serial numbers of its contexts, the next serial
number and the log. -/
structure Tracked (F σ : Type) where
 cont : Continuation F
 memory : σ
 serials : List Nat
 fresh : Nat
 log : List Accepted

namespace Tracked

/-- The machine moves on: a new context gets the next serial number, a dropped one leaves. -/
def move (t : Tracked F σ) (after : Continuation F) : Tracked F σ :=
 if t.serials.length < after.contexts.length then
  { t with cont := after, serials := t.serials ++ [t.fresh], fresh := t.fresh + 1 }
 else { t with cont := after, serials := t.serials.take after.contexts.length }

/-- The log entry of an operation submitted now: the node is the one on top of the stack. -/
def entry (t : Tracked F σ) (op : MemoryOp) : Accepted :=
 match t.cont.stack with
 | .node node context _ :: _ => ⟨(t.serials[context]?).getD 0, node, op⟩
 | _ => ⟨0, 0, op⟩

def start (cont : Continuation F) (memory : σ) : Tracked F σ :=
 { cont := cont, memory := memory, serials := [0], fresh := 1, log := [] }

end Tracked

variable (fl g symbols backend) in
/-- The states of the runs from a new continuation, whatever the backend rejects. -/
inductive Reached (memory : σ) : Tracked F σ → Prop
 | start {cont : Continuation F} (h : Continuation.new g = some cont) :
   Reached memory (Tracked.start cont memory)
 | next {t : Tracked F σ} {after : Continuation F} (ht : Reached memory t)
   (h : t.cont.step fl g symbols = .next after) : Reached memory (t.move after)
 | rejected {t : Tracked F σ} {op : MemoryOp} {reply : op.Reply → Option (Continuation F)}
   (ht : Reached memory t) (h : t.cont.step fl g symbols = .submit op reply) : Reached memory t
 | accepted {t : Tracked F σ} {op : MemoryOp} {reply : op.Reply → Option (Continuation F)}
   {answer : op.Reply} {memory' : σ} {after : Continuation F} (ht : Reached memory t)
   (h : t.cont.step fl g symbols = .submit op reply)
   (ha : backend.accept op t.memory = some (answer, memory')) (hr : reply answer = some after) :
   Reached memory { t.move after with memory := memory', log := t.log ++ [t.entry op] }

/-! ## What the log says -/

variable (fl g) in
/-- The first `k` operands a node looks at have values. -/
def Looked (cache : Cache F) (node k : Nat) : Prop :=
 ∀ kind, kindOf g node = some kind → ∀ j < k, ∀ index child,
  Continuation.childIndex fl g kind node j cache = some (some index) →
  (children g node)[index]? = some child → (cached cache child).isSome

variable (g) in
/-- The iterator operand of a node has a value. -/
def Iterated (cache : Cache F) (node : Nat) : Prop :=
 ∀ iter, (children g node)[0]? = some iter → (cached cache iter).isSome

variable (fl g) in
/-- Every operand the evaluation of a node looks at in its own context has a value: the chosen
arm of a choice, the iterator of a map or reduce, and all operands of any other node. -/
def Complete (cache : Cache F) (node : Nat) : Prop :=
 ∀ kind, kindOf g node = some kind →
  if kind = .map ∨ kind = .reduce then Iterated g cache node else ∀ k, Looked fl g cache node k

variable (fl g) in
/-- Each effect is accepted once per context, and none is passed over. -/
structure ExactlyOnce (t : Tracked F σ) : Prop where
 /-- Contexts have distinct serial numbers. -/
 serials : t.serials.Nodup ∧ t.serials.length = t.cont.contexts.length
 /-- No node has its operation accepted twice in one context, dropped contexts included. -/
 atMostOnce : (t.log.map Accepted.key).Nodup
 /-- In a context that is still there, a node with an effect has been accepted once if it has its
 value, and not at all else. -/
 once : ∀ (i : Nat) (cx : EvalContext F) (serial : Nat),
  t.cont.contexts[i]? = some cx → t.serials[i]? = some serial → ∀ node kind, kindOf g node = some kind → kind.effectful = true →
   (t.log.map Accepted.key).count (serial, node) =
    if (cached cx.cache node).isSome then 1 else 0
 /-- A node with a value has all the operands it looks at. -/
 complete : ∀ cx ∈ t.cont.contexts, ∀ node, (cached cx.cache node).isSome →
  Complete fl g cx.cache node

/-! ## Stability under added values -/

variable {after before cache : Cache F} {node k : Nat} {f : EvalFrame F} {contexts : List (EvalContext F)}
 {cont : Continuation F} {c : Nat → Option (Value F)} {kind : SymKind} {r : Ready F} {args : List (Value F)}
 {t : Tracked F σ}

theorem cached_isSome_extends (h : Extends before after)
  (hn : (cached before node).isSome) : (cached after node).isSome := by
 obtain ⟨v, hv⟩ := isSome_iff_exists.1 hn
 rw [h.keeps node v hv]
 rfl

theorem Looked.extends (h : Looked fl g before node k)
  (hext : Extends before after) : Looked fl g after node k := by
 intro kind hkind j hj index child hidx hchild
 apply cached_isSome_extends hext
 refine h kind hkind j hj index child ?_ hchild
 unfold Continuation.childIndex at hidx ⊢
 split at hidx
 · rename_i hlazy
   rw [if_pos hlazy]
   match j with
   | 0 => exact hidx
   | 1 =>
    -- The selector had its value before, so the same arm was chosen.
    simp only [map_eq_some_iff, bind_eq_some_iff] at hidx ⊢
    obtain ⟨i, ⟨v, hv, hi⟩, he⟩ := hidx
    refine ⟨i, ⟨v, ?_, hi⟩, he⟩
    simp only [childVal, bind_eq_bind, bind_eq_some_iff] at hv ⊢
    obtain ⟨first, hfst, hv⟩ := hv
    refine ⟨first, hfst, ?_⟩
    have hlooked : (cached before first).isSome :=
     h kind hkind 0 (by omega) 0 first (by simp [Continuation.childIndex, hlazy]) hfst
    obtain ⟨w, hw⟩ := isSome_iff_exists.1 hlooked
    rw [hw, ← hv, hext.keeps first w hw]
   | j + 2 => exact hidx
 grind

theorem Iterated.extends (h : Iterated g before node) (hext : Extends before after) : Iterated g after node :=
 fun iter hi => cached_isSome_extends hext (h iter hi)

theorem Complete.extends (h : Complete fl g before node)
  (hext : Extends before after) : Complete fl g after node := by
 intro kind hkind
 have hc := h kind hkind
 split at hc
 · rename_i hk
   rw [if_pos hk]
   exact hc.extends hext
 · rename_i hk
   rw [if_neg hk]
   exact fun k => (hc k).extends hext

/-! ## Frames -/

namespace EvalFrame

/-- The node a frame evaluates. -/
def target : EvalFrame F → Nat
 | .node n _ _ => n
 | .map n _ _ _ _ _ _ => n
 | .reduce n _ _ _ _ _ _ => n

/-- The context a frame evaluates its node in. -/
def inContext : EvalFrame F → Nat
 | .node _ context _ => context
 | .map _ context _ _ _ _ _ => context
 | .reduce _ context _ _ _ _ _ => context

/-- The context of the lane a frame waits for. -/
def lane? : EvalFrame F → Option Nat
 | .node _ _ _ => none
 | .map _ _ _ _ _ laneContext _ => laneContext
 | .reduce _ _ _ _ _ laneContext _ => laneContext

end EvalFrame

variable (fl g) in
/-- What a frame has already looked at in the cache of its context. -/
def FrameOk (cache : Cache F) : EvalFrame F → Prop
 | .node node _ k =>
  Looked fl g cache node k ∧
   ∀ kind, kindOf g node = some kind → kind = .map ∨ kind = .reduce → k = 0
 | .map node _ body elements _ laneContext _ =>
  kindOf g node = some .map ∧ body < g.len ∧ (elements = none → laneContext = none) ∧
   (elements.isSome → Iterated g cache node)
 | .reduce node _ body elements _ laneContext accumulator =>
  kindOf g node = some .reduce ∧ body < g.len ∧ (elements = none → laneContext = none) ∧
   (elements.isSome → Iterated g cache node ∧ accumulator.isSome)

variable (fl g) in
theorem FrameOk.fresh (cache : Cache F) (node context : Nat) : FrameOk fl g cache (.node node context 0) :=
 ⟨nofun, fun _ _ _ => rfl⟩

theorem FrameOk.extends (h : FrameOk fl g before f)
  (hext : Extends before after) : FrameOk fl g after f := by
 cases f with
 | node node context k => exact ⟨h.1.extends hext, h.2⟩
 | map node context body elements lane laneContext results =>
  obtain ⟨hkind, hbody, hlane, hiter⟩ := h
  exact ⟨hkind, hbody, hlane, fun he => (hiter he).extends hext⟩
 | reduce node context body elements lane laneContext accumulator =>
  obtain ⟨hkind, hbody, hlane, hiter⟩ := h
  exact ⟨hkind, hbody, hlane, fun he => ⟨(hiter he).1.extends hext, (hiter he).2⟩⟩

variable (fl g) in
/-- A frame fits the contexts: its node has no value yet, and the lane it waits for lies above
its own context. -/
structure FrameFits (contexts : List (EvalContext F)) (f : EvalFrame F) : Prop where
 context : ∃ cx, contexts[f.inContext]? = some cx ∧ cached cx.cache f.target = none ∧
  FrameOk fl g cx.cache f
 inGraph : f.target < g.len
 lane : ∀ i, f.lane? = some i → f.inContext < i ∧ i < contexts.length

/-- A frame above another one: in the same context its node is smaller; it lies in the lane
the lower one waits for or above it. -/
structure Above (upper lower : EvalFrame F) : Prop where
 node : upper.inContext = lower.inContext → upper.target < lower.target
 context : lower.inContext ≤ upper.inContext
 lane : ∀ i, lower.lane? = some i → i ≤ upper.inContext

variable (fl g) in
/-- The invariant of the machine itself. -/
structure Disciplined (cont : Continuation F) : Prop where
 frames : ∀ f ∈ cont.stack, FrameFits fl g cont.contexts f
 above : cont.stack.Pairwise Above
 caches : ∀ cx ∈ cont.contexts, cx.cache.length = g.len
 complete : ∀ cx ∈ cont.contexts, ∀ node, (cached cx.cache node).isSome →
  Complete fl g cx.cache node

variable (fl g) in
/-- The moves of the machine. A frame is popped, replaced by one for the same node, or has a
node frame pushed on it; a value is stored and its frame popped; a lane's context is added
or dropped. The index says whether the move stores the value of an effect. -/
inductive Move : Bool → Continuation F → Continuation F → Prop
 | pop {root : Nat} {contexts : List (EvalContext F)} {f : EvalFrame F}
   {rest : List (EvalFrame F)} : Move false ⟨root, contexts, f :: rest⟩ ⟨root, contexts, rest⟩
 | replace {root : Nat} {contexts : List (EvalContext F)} {f f' : EvalFrame F}
   {rest : List (EvalFrame F)} (hnode : f'.target = f.target)
   (hcontext : f'.inContext = f.inContext) (hlane : f'.lane? = none)
   (hok : ∀ cx, contexts[f.inContext]? = some cx → FrameOk fl g cx.cache f') :
   Move false ⟨root, contexts, f :: rest⟩ ⟨root, contexts, f' :: rest⟩
 | push {root : Nat} {contexts : List (EvalContext F)} {f : EvalFrame F}
   {rest : List (EvalFrame F)} {child : Nat} (hlt : child < f.target) (hlane : f.lane? = none)
   (hnone : ∀ cx, contexts[f.inContext]? = some cx → cached cx.cache child = none) :
   Move false ⟨root, contexts, f :: rest⟩ ⟨root, contexts, .node child f.inContext 0 :: f :: rest⟩
 | store {root : Nat} {contexts : List (EvalContext F)} {f : EvalFrame F}
   {rest : List (EvalFrame F)} {value : Value F} {kind : SymKind}
   (hkind : kindOf g f.target = some kind)
   (hcomplete : ∀ cx, contexts[f.inContext]? = some cx → Complete fl g cx.cache f.target) :
   Move kind.effectful ⟨root, contexts, f :: rest⟩
    ⟨root, setCache contexts f.inContext f.target (some value), rest⟩
 | enter {root : Nat} {contexts : List (EvalContext F)} {f f' : EvalFrame F}
   {rest : List (EvalFrame F)} {body : Nat} {args : List (Value F)} (hbody : body < g.len)
   (hnode : f'.target = f.target) (hcontext : f'.inContext = f.inContext)
   (hlane : f'.lane? = some contexts.length)
   (hok : ∀ cx, contexts[f.inContext]? = some cx → FrameOk fl g cx.cache f') :
   Move false ⟨root, contexts, f :: rest⟩
    ⟨root, contexts ++ [⟨replicate g.len none, args⟩],
     .node body contexts.length 0 :: f' :: rest⟩
 | leave {root : Nat} {contexts : List (EvalContext F)} {f f' : EvalFrame F}
   {rest : List (EvalFrame F)} {i : Nat} (hi : f.lane? = some i) (hnode : f'.target = f.target)
   (hcontext : f'.inContext = f.inContext) (hlane : f'.lane? = none)
   (hok : ∀ cx, contexts[f.inContext]? = some cx → FrameOk fl g cx.cache f') :
   Move false ⟨root, contexts, f :: rest⟩ ⟨root, contexts.take i, f' :: rest⟩

/-! ## The machine's invariant is kept -/

section

variable (h : FrameFits fl g contexts f)

include h

theorem FrameFits.inRange
  : f.inContext < contexts.length := by
 obtain ⟨cx, hcx, -⟩ := h.context
 exact (List.getElem?_eq_some_iff.1 hcx).1

/-- A frame fits a list of contexts that agrees with the old one where the frame looks, up to
added values. -/
theorem FrameFits.mono {contexts' : List (EvalContext F)}
  (hctx : ∀ cx, contexts[f.inContext]? = some cx → ∃ cx', contexts'[f.inContext]? = some cx' ∧
   Extends cx.cache cx'.cache ∧ cached cx'.cache f.target = cached cx.cache f.target)
  (hlane : ∀ i, f.lane? = some i → i < contexts'.length) : FrameFits fl g contexts' f := by
 obtain ⟨cx, hcx, hnone, hok⟩ := h.context
 obtain ⟨cx', hcx', hext, hsame⟩ := hctx cx hcx
 exact
  { context := ⟨cx', hcx', hsame.trans hnone, hok.extends hext⟩
    inGraph := h.inGraph
    lane := fun i hi => ⟨(h.lane i hi).1, hlane i hi⟩ }

theorem FrameFits.append
  (cx : EvalContext F) : FrameFits fl g (contexts ++ [cx]) f := by
 refine h.mono (fun cx0 hcx0 => ⟨cx0, ?_, Extends.refl _, rfl⟩) (fun i hi => ?_)
 · grind
 · have := (h.lane i hi).2
   grind

theorem FrameFits.take {i : Nat} (hi : f.inContext < i) (hlane : ∀ j, f.lane? = some j → j < i)
  (hlen : i ≤ contexts.length) : FrameFits fl g (contexts.take i) f := by
 refine h.mono (fun cx0 hcx0 => ⟨cx0, ?_, Extends.refl _, rfl⟩) (fun j hj => ?_)
 · grind
 grind

end

/-- The context at an index after a value was stored in one of them. -/
theorem getElem?_setCache (contexts : List (EvalContext F)) (context node i : Nat)
  (value : Option (Value F)) {cx : EvalContext F} (h : contexts[i]? = some cx) :
  (setCache contexts context node value)[i]? =
   some (if context = i then { cx with cache := cx.cache.set node value } else cx) := by
 unfold setCache
 grind

theorem setCache_length (contexts : List (EvalContext F)) (context node : Nat)
  (value : Option (Value F)) : (setCache contexts context node value).length = contexts.length := by
 exact length_modify ..

theorem FrameFits.setCache {context : Nat} {value : Value F} (h : FrameFits fl g contexts f)
  (hfree : ∀ cx, contexts[context]? = some cx → cached cx.cache node = none)
  (hne : context = f.inContext → node ≠ f.target) :
  FrameFits fl g (Tir.Lang.setCache contexts context node (some value)) f := by
 refine h.mono (fun cx hcx => ?_) (fun i hi => ?_)
 · rw [getElem?_setCache contexts context node f.inContext (some value) hcx]
   refine ⟨_, rfl, ?_, ?_⟩
   · split
     · grind [Extends.set]
     · exact Extends.refl _
   grind [cached_set_ne]
 · rw [setCache_length]
   exact (h.lane i hi).2

/-- Another frame for the same node in the same context. -/
theorem FrameFits.replace {f' : EvalFrame F} (h : FrameFits fl g contexts f) (hnode : f'.target = f.target)
  (hcontext : f'.inContext = f.inContext) (hok : ∀ cx, contexts[f.inContext]? = some cx → FrameOk fl g cx.cache f')
  (hlane : ∀ i, f'.lane? = some i → f'.inContext < i ∧ i < contexts.length) :
  FrameFits fl g contexts f' := by
 obtain ⟨cx, hcx, hnone, -⟩ := h.context
 exact
  { context := ⟨cx, hcontext ▸ hcx, hnode ▸ hnone, hok cx hcx⟩
    inGraph := hnode ▸ h.inGraph
    lane := hlane }

theorem Above.replace {f' lower : EvalFrame F} (h : Above f lower)
  (hnode : f'.target = f.target) (hcontext : f'.inContext = f.inContext) : Above f' lower where
 node := fun hc => hnode ▸ h.node (hcontext ▸ hc)
 context := hcontext ▸ h.context
 lane := fun i hi => hcontext ▸ h.lane i hi

theorem Disciplined.empty (h : Continuation.new g = some cont) :
  Disciplined fl g cont := by
 unfold Continuation.new at h
 rw [map_eq_some_iff] at h
 obtain ⟨root, hroot, hcont⟩ := h
 cases hcont
 have hlen := Dag.root_eq_some hroot
 refine
  { frames := ?_
    above := pairwise_singleton _ _
    caches := ?_
    complete := ?_ }
 · intro f hf
   rw [mem_singleton] at hf
   cases hf
   refine { context := ⟨_, rfl, cached_replicate _ _, FrameOk.fresh fl g _ _ _⟩,
            inGraph := ?_, lane := ?_ }
   · change root < g.len
     omega
   · intro i hi
     cases hi
 · grind
 grind [cached_replicate]

section Moves

variable {root : Nat} {contexts : List (EvalContext F)} {f f' : EvalFrame F}
 {rest : List (EvalFrame F)} (h : Disciplined fl g ⟨root, contexts, f :: rest⟩)

include h

theorem Disciplined.store {value : Value F}
  (hcomplete : ∀ cx, contexts[f.inContext]? = some cx → Complete fl g cx.cache f.target) :
  Disciplined fl g ⟨root, setCache contexts f.inContext f.target (some value), rest⟩ := by
 obtain ⟨habove, hrest⟩ := pairwise_cons.1 h.above
 have hfits := h.frames f (.head _)
 obtain ⟨cx, hcx, hnone, -⟩ := hfits.context
 have hfree : ∀ cx', contexts[f.inContext]? = some cx' → cached cx'.cache f.target = none := by
  grind
 have hmem : cx ∈ contexts := mem_of_getElem? hcx
 have hstored : ∀ cx' ∈ setCache contexts f.inContext f.target (some value),
   cx' ∈ contexts ∨ cx' = { cx with cache := cx.cache.set f.target (some value) } := by
  grind [setCache_eq]
 refine { frames := ?_, above := hrest, caches := ?_, complete := ?_ }
 · intro f0 hf0
   refine (h.frames f0 (.tail _ hf0)).setCache hfree fun hc => ?_
   exact Nat.ne_of_lt ((habove f0 hf0).node hc)
 · intro cx' hcx'
   rcases hstored cx' hcx' with hold | rfl
   · exact h.caches cx' hold
   · exact length_set.trans (h.caches cx hmem)
 · intro cx' hcx' node hnode
   rcases hstored cx' hcx' with hold | rfl
   · exact h.complete cx' hold node hnode
   · have hext : Extends cx.cache (cx.cache.set f.target (some value)) := Extends.set hnone _
     by_cases heq : f.target = node
     · exact heq ▸ (hcomplete cx hcx).extends hext
     · rw [cached_set_ne cx.cache heq] at hnode
       exact (h.complete cx hmem node hnode).extends hext

theorem Disciplined.enter {body : Nat} {args : List (Value F)} (hbody : body < g.len)
  (hnode : f'.target = f.target) (hcontext : f'.inContext = f.inContext) (hlane : f'.lane? = some contexts.length)
  (hok : ∀ cx, contexts[f.inContext]? = some cx → FrameOk fl g cx.cache f') :
  Disciplined fl g ⟨root, contexts ++ [⟨replicate g.len none, args⟩],
   .node body contexts.length 0 :: f' :: rest⟩ := by
 obtain ⟨habove, hrest⟩ := pairwise_cons.1 h.above
 have hfits := h.frames f (.head _)
 have hin := hfits.inRange
 refine { frames := ?_, above := ?_, caches := ?_, complete := ?_ }
 · intro f0 hf0
   rcases mem_cons.1 hf0 with rfl | hf0
   · refine { context := ⟨_, getElem?_concat_length, cached_replicate _ _,
           FrameOk.fresh fl g _ _ _⟩,
              inGraph := hbody, lane := ?_ }
     intro i hi
     cases hi
   · rcases mem_cons.1 hf0 with rfl | hf0
     · refine (hfits.append _).replace hnode hcontext (fun cx hcx => ?_) (fun i hi => ?_)
       · grind
       grind
     · exact (h.frames f0 (.tail _ hf0)).append _
 · refine pairwise_cons.2 ⟨fun lower hl => ?_, pairwise_cons.2
    ⟨fun lower hl => (habove lower hl).replace hnode hcontext, hrest⟩⟩
   -- The body's frame is alone in its context, and every lane below it is a lower context.
   have hlow : lower.inContext < contexts.length := by
    rcases mem_cons.1 hl with rfl | hl
    · exact hcontext ▸ hin
    · exact (h.frames lower (.tail _ hl)).inRange
   refine { node := fun hc => ?_, context := le_of_lt hlow, lane := fun i hi => ?_ }
   · have hc' : contexts.length = lower.inContext := hc
     omega
   · rcases mem_cons.1 hl with rfl | hl
     · rw [hlane, some.injEq] at hi
       exact hi ▸ le_rfl
     · exact le_of_lt ((h.frames lower (.tail _ hl)).lane i hi).2
 · intro cx hcx
   rcases mem_append.1 hcx with hold | hnew
   · exact h.caches cx hold
   grind
 · intro cx hcx node hn
   rcases mem_append.1 hcx with hold | hnew
   · exact h.complete cx hold node hn
   grind [cached_replicate]

theorem Disciplined.leave {i : Nat} (hi : f.lane? = some i) (hnode : f'.target = f.target)
  (hcontext : f'.inContext = f.inContext) (hlane : f'.lane? = none)
  (hok : ∀ cx, contexts[f.inContext]? = some cx → FrameOk fl g cx.cache f') :
  Disciplined fl g ⟨root, contexts.take i, f' :: rest⟩ := by
 obtain ⟨habove, hrest⟩ := pairwise_cons.1 h.above
 have hfits := h.frames f (.head _)
 obtain ⟨hlow, hlen⟩ := hfits.lane i hi
 have hnolane : ∀ j, f'.lane? = some j → j < i := fun j hj => by
  rw [hlane] at hj
  cases hj
 have hfits' : FrameFits fl g contexts f' :=
  hfits.replace hnode hcontext hok fun j hj => by
   grind
 refine { frames := ?_, above := ?_, caches := ?_, complete := ?_ }
 · intro f0 hf0
   rcases mem_cons.1 hf0 with rfl | hf0
   · exact hfits'.take (hcontext ▸ hlow) hnolane (le_of_lt hlen)
   · -- Everything below the frame lies below the lane it leaves.
     have ha := habove f0 hf0
     refine (h.frames f0 (.tail _ hf0)).take
      (ha.context.trans_lt hlow) (fun j hj => ?_) (le_of_lt hlen)
     exact (ha.lane j hj).trans_lt hlow
 · exact pairwise_cons.2 ⟨fun lower hl => (habove lower hl).replace hnode hcontext, hrest⟩
 · exact fun cx hcx => h.caches cx (mem_of_mem_take hcx)
 · exact fun cx hcx => h.complete cx (mem_of_mem_take hcx)

end Moves

theorem Disciplined.move {effect : Bool} {after : Continuation F} (h : Disciplined fl g cont)
  (hm : Move fl g effect cont after) : Disciplined fl g after := by
 cases hm with
 | pop => exact
   { frames := fun f hf => h.frames f (.tail _ hf)
     above := (pairwise_cons.1 h.above).2
     caches := h.caches
     complete := h.complete }
 | @replace root contexts f f' rest hnode hcontext hlane hok =>
  obtain ⟨habove, hrest⟩ := pairwise_cons.1 h.above
  have hfits := h.frames f (.head _)
  refine { frames := ?_, above := ?_, caches := h.caches, complete := h.complete }
  · intro f0 hf0
    rcases mem_cons.1 hf0 with rfl | hf0
    · refine hfits.replace hnode hcontext hok fun i hi => ?_
      grind
    · exact h.frames f0 (.tail _ hf0)
  · exact pairwise_cons.2 ⟨fun lower hl => (habove lower hl).replace hnode hcontext, hrest⟩
 | @push root contexts f rest child hlt hlane hnone =>
  obtain ⟨habove, -⟩ := pairwise_cons.1 h.above
  have hfits := h.frames f (.head _)
  refine { frames := ?_, above := ?_, caches := h.caches, complete := h.complete }
  · intro f0 hf0
    rcases mem_cons.1 hf0 with rfl | hf0
    · obtain ⟨cx, hcx, -, -⟩ := hfits.context
      refine { context := ⟨cx, hcx, hnone cx hcx, FrameOk.fresh fl g _ _ _⟩,
               inGraph := ?_, lane := ?_ }
      · exact hlt.trans hfits.inGraph
      · intro i hi
        cases hi
    · exact h.frames f0 hf0
  · refine pairwise_cons.2 ⟨fun lower hl => ?_, h.above⟩
    rcases mem_cons.1 hl with rfl | hl
    · exact
       { node := fun _ => hlt
         context := le_rfl
         lane := fun i hi => by
          grind }
    · have ha := habove lower hl
      exact
       { node := fun hc => hlt.trans (ha.node hc)
         context := ha.context
         lane := ha.lane }
 | store _ hcomplete => exact h.store hcomplete
 | enter hbody hnode hcontext hlane hok => exact h.enter hbody hnode hcontext hlane hok
 | leave hi hnode hcontext hlane hok => exact h.leave hi hnode hcontext hlane hok

/-! ## Which nodes submit -/

/-- A ready node submits an operation; it does not have its value at once. -/
def Ready.submits : Ready F → Bool
 | .value _ => false
 | .submit _ _ => true

theorem evalMemory_submits
  (h : evalMemory fl kind c = some r) : r.submits = true := by
 simp only [evalMemory, bind_eq_bind, bind_eq_some_iff] at h
 obtain ⟨_, _, _, _, _, _, _, _, h⟩ := h
 split at h
 · split at h <;> cases h <;> rfl
 · simp only [bind_eq_some_iff] at h
   obtain ⟨_, _, _, _, h⟩ := h
   split at h
   · cases h
     rfl
   · simp only [bind_eq_some_iff] at h
     obtain ⟨_, _, h⟩ := h
     cases h
     rfl

theorem evalAtomic_submits
  (h : evalAtomic kind c = some r) : r.submits = true := by
 unfold evalAtomic at h
 split at h
 · simp only [bind_eq_bind, bind_eq_some_iff] at h
   obtain ⟨_, _, _, _, _, _, _, _, h⟩ := h
   split at h
   · cases h
   · simp only [bind_eq_some_iff] at h
     obtain ⟨_, _, _, _, h⟩ := h
     cases h
     rfl
 · simp only [bind_eq_bind, bind_eq_some_iff] at h
   obtain ⟨_, _, _, _, _, _, _, _, h⟩ := h
   split at h
   · cases h
   · simp only [bind_eq_some_iff] at h
     obtain ⟨_, _, _, _, _, _, _, _, h⟩ := h
     cases h
     rfl
 · simp only [bind_eq_bind, bind_eq_some_iff] at h
   obtain ⟨_, _, _, _, _, _, _, _, _, _, _, _, _, _, h⟩ := h
   split at h
   · cases h
   · simp only [bind_eq_some_iff] at h
     obtain ⟨_, _, _, _, _, _, _, _, h⟩ := h
     cases h
     rfl
 · simp only [bind_eq_bind, bind_eq_some_iff] at h
   obtain ⟨_, _, _, _, _, _, _, _, _, _, _, _, h⟩ := h
   cases h
   rfl

theorem evalDivrem_effectful (h : kind.effectful = true)
  (c : Nat → Option (Value F)) : evalDivrem kind c = some none := by
 cases kind <;> first | rfl | cases h

theorem evalScalar_effectful (h : kind.effectful = true)
  (c : Nat → Option (Value F)) : evalScalar kind c = some none := by
 cases kind <;> first | rfl | cases h

theorem evalOther_submits (h : evalOther fl g node kind symbols cache args c = some r) :
  r.submits = kind.effectful := by
 unfold evalOther at h
 split at h
 · exact evalMemory_submits h
 · exact evalMemory_submits h
 · exact evalAtomic_submits h
 · exact evalAtomic_submits h
 · exact evalAtomic_submits h
 · exact evalAtomic_submits h
 · rw [map_eq_some_iff] at h
   obtain ⟨v, -, rfl⟩ := h
   cases kind <;> first | contradiction | rfl

/-- A ready node submits exactly when its kind has an effect. -/
theorem evalReady_submits (hkind : kindOf g node = some kind)
  (h : evalReady fl g node symbols cache args = some r) : r.submits = kind.effectful := by
 unfold evalReady at h
 rw [hkind] at h
 simp only [bind_eq_bind, bind_some] at h
 cases heff : kind.effectful with
 | true =>
  grind [evalDivrem_effectful, evalScalar_effectful, evalOther_submits]
 | false =>
  simp only [bind_eq_some_iff] at h
  obtain ⟨divided, -, h⟩ := h
  split at h
  · cases h
    rfl
  · rw [bind_eq_some_iff] at h
    obtain ⟨scalar, -, h⟩ := h
    split at h
    · cases h
      rfl
    · exact (evalOther_submits h).trans heff

/-! ## The moves of one turn -/

theorem kindOf_eq {n : DagNode SymKind (SymPayload V F)}
  (hn : g.nodes[node]? = some n) : kindOf g node = some n.label := by
 unfold kindOf
 rw [hn]
 rfl

section

variable (hkind : kindOf g node = some kind)

include hkind

/-- Once no operand is left to look at, all of them have been. -/
theorem Looked.all (h : Looked fl g cache node k)
  (hk : Continuation.childIndex fl g kind node k cache = some none) (k' : Nat) :
  Looked fl g cache node k' := by
 intro kind' hkind' j hj index child hidx hchild
 rw [hkind] at hkind'
 cases hkind'
 by_cases hjk : j < k
 · exact h kind hkind j hjk index child hidx hchild
 · -- Past the last operand there is none.
   unfold Continuation.childIndex at hk hidx
   split at hk
   · grind
   grind

theorem Complete.ofLooked (hmap : kind ≠ .map) (hreduce : kind ≠ .reduce) (h : Looked fl g cache node k)
  (hk : Continuation.childIndex fl g kind node k cache = some none) :
  Complete fl g cache node := by
 intro kind' hkind'
 rw [hkind] at hkind'
 cases hkind'
 rw [if_neg (fun hor => hor.elim hmap hreduce)]
 exact h.all hkind hk

theorem Complete.ofIterated (hlambda : kind = .map ∨ kind = .reduce)
  (h : Iterated g cache node) : Complete fl g cache node := by
 intro kind' hkind'
 grind

/-- One more operand has been looked at and has its value. -/
theorem Looked.succ {index child : Nat} (h : Looked fl g cache node k)
  (hidx : Continuation.childIndex fl g kind node k cache = some (some index))
  (hchild : (children g node)[index]? = some child) (hv : (cached cache child).isSome) :
  Looked fl g cache node (k + 1) := by
 intro kind' hkind' j hj index' child' hidx' hchild'
 rw [hkind] at hkind'
 cases hkind'
 rcases Nat.lt_succ_iff_lt_or_eq.1 hj with hlt | rfl
 · exact h kind hkind j hlt index' child' hidx' hchild'
 grind

end

section Turn

variable {root : Nat} {contexts : List (EvalContext F)} {rest : List (EvalFrame F)}

variable {after cont : Continuation F} {context node body lane : Nat} {cx : EvalContext F}
 {elements : Option (List (Value F))} {laneContext : Option Nat} {results values : List (Value F)}
 {accumulator : Option (Value F)}

/-- What a turn of a node frame does to the operands and the node. -/
theorem move_stepOperands {k : Nat} {kind : SymKind} (hcx : contexts[context]? = some cx)
  (hkind : kindOf g node = some kind) (hmap : kind ≠ .map) (hreduce : kind ≠ .reduce)
  (hlooked : Looked fl g cx.cache node k)
  (hs : Continuation.stepOperands fl g symbols root contexts rest node context k kind cx = .next after) :
  Move fl g false ⟨root, contexts, .node node context k :: rest⟩ after := by
 have hsame : ∀ cx', contexts[context]? = some cx' → cx' = cx := by
  grind
 unfold Continuation.stepOperands at hs
 split at hs
 · cases hs
 · rename_i hidx
   unfold Continuation.finishNode at hs
   split at hs
   · cases hs
   · rename_i v hready
     cases hs
     have heff : kind.effectful = false := (evalReady_submits hkind hready).symm
     rw [← heff]
     apply Move.store (f := EvalFrame.node node context k) hkind
     intro cx' h'
     cases hsame cx' h'
     exact Complete.ofLooked hkind hmap hreduce hlooked hidx
   · cases hs
 · rename_i index hidx
   split at hs
   · cases hs
   · rename_i child hchild
     split at hs
     · rename_i hv
       cases hs
       refine Move.replace rfl rfl rfl fun cx' h' => ⟨?_, fun kind' hkind' hlambda => ?_⟩
       · cases hsame cx' h'
         exact hlooked.succ hkind hidx hchild hv
       grind
     · rename_i hv
       cases hs
       refine Move.push (f := EvalFrame.node node context k) (children_lt g hchild) rfl
        fun cx' h' => ?_
       cases hsame cx' h'
       simpa using hv

/-- The iterator operand of a lambda frame: evaluated already, or a child to evaluate first. -/
theorem iteratorOf_cases {iter : Nat} {o : Option (List (Value F))}
  (h : Continuation.iteratorOf g contexts node context = some (iter, o)) :
  iter < node ∧ ∃ cx, contexts[context]? = some cx ∧
   (o = none → cached cx.cache iter = none) ∧ (o.isSome → Iterated g cx.cache node) := by
 simp only [Continuation.iteratorOf, bind_eq_bind, bind_eq_some_iff] at h
 obtain ⟨iter', hiter, cache, hcache, h⟩ := h
 rw [cacheOf, map_eq_some_iff] at hcache
 obtain ⟨cx, hcx, rfl⟩ := hcache
 split at h
 · rename_i hnone
   cases h
   exact ⟨children_lt g hiter, cx, hcx, fun _ => hnone, by rintro ⟨⟩⟩
 · rename_i v hv
   rw [bind_eq_some_iff] at h
   obtain ⟨values, -, h⟩ := h
   cases h
   refine ⟨children_lt g hiter, cx, hcx, by rintro ⟨⟩, fun _ iter' hi' => ?_⟩
   grind

/-- What the lanes of a map do: end, begin, or finish the whole map. -/
theorem move_stepMapLanes (hkind : kindOf g node = some .map) (hbody : body < g.len)
  (hiter : ∀ cx, contexts[context]? = some cx → Iterated g cx.cache node)
  (hs : Continuation.stepMapLanes g root contexts rest node context body values lane laneContext results = some after) :
  Move fl g false
   ⟨root, contexts, .map node context body elements lane laneContext results :: rest⟩ after := by
 unfold Continuation.stepMapLanes at hs
 split at hs
 · simp only [bind_eq_bind, bind_eq_some_iff] at hs
   obtain ⟨_, -, hs⟩ := hs
   cases hs
   exact Move.store (f := EvalFrame.map node context body elements lane laneContext results) hkind
    fun cx hcx => Complete.ofIterated hkind (.inl rfl) (hiter cx hcx)
 · split at hs
   · rename_i inner
     simp only [bind_eq_bind, bind_eq_some_iff] at hs
     obtain ⟨cache, -, hs⟩ := hs
     split at hs
     · cases hs
       exact Move.leave rfl rfl rfl rfl fun cx hcx => ⟨hkind, hbody, nofun, fun _ => hiter cx hcx⟩
     · cases hs
       exact Move.pop
   · simp only [Continuation.newLambdaContext, bind_eq_bind, bind_eq_some_iff] at hs
     obtain ⟨element, -, extended, ⟨cx, -, hext⟩, hs⟩ := hs
     cases hext
     cases hs
     exact Move.enter hbody rfl rfl rfl fun cx hcx => ⟨hkind, hbody, nofun, fun _ => hiter cx hcx⟩

theorem move_stepReduceLanes {start : Nat} {initial : Option (Value F)}
  (hkind : kindOf g node = some .reduce) (hbody : body < g.len) (hacc : accumulator.isSome)
  (hiter : ∀ cx, contexts[context]? = some cx → Iterated g cx.cache node)
  (hs : Continuation.stepReduceLanes g root contexts rest node context body values lane
   laneContext accumulator = some after) : Move fl g false
   ⟨root, contexts, .reduce node context body elements start laneContext initial :: rest⟩
   after := by
 unfold Continuation.stepReduceLanes at hs
 split at hs
 · simp only [bind_eq_bind, bind_eq_some_iff] at hs
   obtain ⟨_, -, hs⟩ := hs
   cases hs
   obtain ⟨v, rfl⟩ := isSome_iff_exists.1 hacc
   exact Move.store (f := EvalFrame.reduce node context body elements start laneContext initial)
    hkind fun cx hcx => Complete.ofIterated hkind (.inr rfl) (hiter cx hcx)
 · split at hs
   · rename_i inner
     simp only [bind_eq_bind, bind_eq_some_iff] at hs
     obtain ⟨cache, -, hs⟩ := hs
     split at hs
     · cases hs
       exact Move.leave rfl rfl rfl rfl fun cx hcx =>
        ⟨hkind, hbody, nofun, fun _ => ⟨hiter cx hcx, rfl⟩⟩
     · cases hs
       exact Move.pop
   · simp only [Continuation.newLambdaContext, bind_eq_bind, bind_eq_some_iff] at hs
     obtain ⟨acc, -, element, -, extended, ⟨cx, -, hext⟩, hs⟩ := hs
     cases hext
     cases hs
     exact Move.enter hbody rfl rfl rfl fun cx hcx =>
      ⟨hkind, hbody, nofun, fun _ => ⟨hiter cx hcx, hacc⟩⟩

theorem move_stepMap (hcx : contexts[context]? = some cx)
  (hok : FrameOk fl g cx.cache (.map node context body elements lane laneContext results))
  (hs : Continuation.stepMap g root contexts rest node context body elements lane laneContext results = some after) :
  Move fl g false
   ⟨root, contexts, .map node context body elements lane laneContext results :: rest⟩ after := by
 obtain ⟨hkind, hbody, hlane, hiter⟩ := hok
 have hsame : ∀ cx', contexts[context]? = some cx' → cx' = cx := by
  grind
 unfold Continuation.stepMap at hs
 split at hs
 · exact move_stepMapLanes hkind hbody (fun cx' h' => hsame cx' h' ▸ hiter rfl) hs
 · simp only [bind_eq_bind, bind_eq_some_iff] at hs
   obtain ⟨⟨iter, o⟩, hi, hs⟩ := hs
   obtain ⟨hlt, cx', hcx', hnone, hsome⟩ := iteratorOf_cases hi
   cases hsame cx' hcx'
   split at hs
   · grind [move_stepMapLanes]
   · rename_i heq
     cases heq
     cases hs
     refine Move.push (f := EvalFrame.map node context body none lane laneContext results) hlt
      (hlane rfl) fun cx' h' => ?_
     exact hsame cx' h' ▸ hnone rfl

theorem move_stepReduce (hcx : contexts[context]? = some cx)
  (hok : FrameOk fl g cx.cache (.reduce node context body elements lane laneContext accumulator))
  (hs : Continuation.stepReduce g root contexts rest node context body elements lane laneContext
   accumulator = some after) : Move fl g false
   ⟨root, contexts, .reduce node context body elements lane laneContext accumulator :: rest⟩
   after := by
 obtain ⟨hkind, hbody, hlane, hiter⟩ := hok
 have hsame : ∀ cx', contexts[context]? = some cx' → cx' = cx := by
  grind
 unfold Continuation.stepReduce at hs
 split at hs
 · grind [move_stepReduceLanes]
 · simp only [bind_eq_bind, bind_eq_some_iff] at hs
   obtain ⟨⟨iter, o⟩, hi, hs⟩ := hs
   obtain ⟨hlt, cx', hcx', hnone, hsome⟩ := iteratorOf_cases hi
   cases hsame cx' hcx'
   split at hs
   · rename_i heq
     cases heq
     rw [bind_eq_some_iff] at hs
     obtain ⟨first, -, hs⟩ := hs
     exact move_stepReduceLanes hkind hbody rfl (fun cx' h' => hsame cx' h' ▸ hsome rfl) hs
   · rename_i heq
     cases heq
     cases hs
     refine Move.push (f := EvalFrame.reduce node context body none lane laneContext accumulator)
      hlt (hlane rfl) fun cx' h' => ?_
     exact hsame cx' h' ▸ hnone rfl

/-- A turn without a memory operation is a move that stores no effect. -/
theorem move_next (h : Disciplined fl g cont)
  (hs : cont.step fl g symbols = .next after) : Move fl g false cont after := by
 obtain ⟨root, contexts, stack⟩ := cont
 cases stack with
 | nil => cases hs
 | cons f rest =>
  have hfits := h.frames f (.head _)
  obtain ⟨cx, hcx, hnone, hok⟩ := hfits.context
  have hsame : ∀ cx', contexts[f.inContext]? = some cx' → cx' = cx := by
   grind
  cases f with
  | node node context k =>
   simp only [Continuation.step, Continuation.stepNode] at hs
   split at hs
   · rename_i cx' n hcx' hn
     cases hsame cx' hcx'
     have hkind := kindOf_eq hn
     have hbody : ∀ body, n.children[1]? = some body → body < g.len := fun body hb =>
      (g.topological node n hn body (mem_of_getElem? hb)).trans hfits.inGraph
     split at hs
     · cases hs
       exact Move.pop
     · split at hs
       · rename_i hmap
         split at hs
         · rename_i body hb
           cases hs
           exact Move.replace rfl rfl rfl fun _ _ =>
            ⟨hkind.trans (congrArg some hmap.1), hbody body hb, fun _ => rfl, by rintro ⟨⟩⟩
         · cases hs
       · split at hs
         · rename_i hreduce
           split at hs
           · rename_i body hb
             cases hs
             exact Move.replace rfl rfl rfl fun _ _ =>
              ⟨hkind.trans (congrArg some hreduce.1), hbody body hb, fun _ => rfl, by rintro ⟨⟩⟩
           · cases hs
         · rename_i hmap hreduce
           exact move_stepOperands hcx hkind
            (fun hm => hmap ⟨hm, hok.2 _ hkind (.inl hm)⟩)
            (fun hr => hreduce ⟨hr, hok.2 _ hkind (.inr hr)⟩) hok.1 hs
   · cases hs
  | map node context body elements lane laneContext results =>
   simp only [Continuation.step] at hs
   cases hstep : Continuation.stepMap g root contexts rest node context body elements lane
     laneContext results with
   | none =>
    rw [hstep] at hs
    cases hs
   | some cont =>
    rw [hstep] at hs
    cases hs
    exact move_stepMap hcx hok hstep
  | reduce node context body elements lane laneContext accumulator =>
   simp only [Continuation.step] at hs
   cases hstep : Continuation.stepReduce g root contexts rest node context body elements lane
     laneContext accumulator with
   | none =>
    rw [hstep] at hs
    cases hs
   | some cont =>
    rw [hstep] at hs
    cases hs
    exact move_stepReduce hcx hok hstep

/-- An accepted operation stores the value of the effect on top of the stack. -/
theorem move_submit {op : MemoryOp}
  {reply : op.Reply → Option (Continuation F)} {answer : op.Reply} (h : Disciplined fl g cont)
  (hs : cont.step fl g symbols = .submit op reply) (hr : reply answer = some after) : ∃ node context k rest value kind,
   cont = ⟨cont.root, cont.contexts, .node node context k :: rest⟩ ∧
   after = ⟨cont.root, setCache cont.contexts context node (some value), rest⟩ ∧
   kindOf g node = some kind ∧ kind.effectful = true ∧
   ∀ cx, cont.contexts[context]? = some cx → Complete fl g cx.cache node := by
 obtain ⟨root, contexts, stack⟩ := cont
 cases stack with
 | nil => cases hs
 | cons f rest =>
  have hfits := h.frames f (.head _)
  obtain ⟨cx, hcx, hnone, hok⟩ := hfits.context
  have hsame : ∀ cx', contexts[f.inContext]? = some cx' → cx' = cx := by
   grind
  cases f with
  | node node context k =>
   simp only [Continuation.step, Continuation.stepNode] at hs
   split at hs
   · rename_i cx' n hcx' hn
     cases hsame cx' hcx'
     have hkind := kindOf_eq hn
     split at hs
     · cases hs
     · split at hs
       · split at hs <;> cases hs
       · split at hs
         · split at hs <;> cases hs
         · rename_i hmap hreduce
           unfold Continuation.stepOperands at hs
           split at hs
           · cases hs
           · rename_i hidx
             unfold Continuation.finishNode at hs
             split at hs
             · cases hs
             · cases hs
             · rename_i op' accepted hready
               cases hs
               rw [map_eq_some_iff] at hr
               obtain ⟨value, -, rfl⟩ := hr
               refine ⟨node, context, k, rest, value, n.label, rfl, rfl, hkind,
                (evalReady_submits hkind hready).symm, fun cx' h' => ?_⟩
               cases hsame cx' h'
               exact Complete.ofLooked hkind
                (fun hm => hmap ⟨hm, hok.2 _ hkind (.inl hm)⟩)
                (fun hr => hreduce ⟨hr, hok.2 _ hkind (.inr hr)⟩) hok.1 hidx
           grind
   · cases hs
  | map node context body elements lane laneContext results =>
   simp only [Continuation.step] at hs
   cases hstep : Continuation.stepMap g root contexts rest node context body elements lane
     laneContext results <;> rw [hstep] at hs <;> cases hs
  | reduce node context body elements lane laneContext accumulator =>
   simp only [Continuation.step] at hs
   cases hstep : Continuation.stepReduce g root contexts rest node context body elements lane
     laneContext accumulator <;> rw [hstep] at hs <;> cases hs

end Turn

/-! ## The log is right in every state -/

variable (fl g) in
/-- The invariant of an observed run. -/
structure Tracks (t : Tracked F σ) : Prop where
 disciplined : Disciplined fl g t.cont
 length : t.serials.length = t.cont.contexts.length
 nodup : t.serials.Nodup
 old : ∀ s ∈ t.serials, s < t.fresh
 logged : ∀ e ∈ t.log, e.context < t.fresh
 keys : (t.log.map Accepted.key).Nodup
 effects : ∀ (i : Nat) (cx : EvalContext F) (serial : Nat),
  t.cont.contexts[i]? = some cx → t.serials[i]? = some serial → ∀ node kind,
   kindOf g node = some kind → kind.effectful = true →
    ((cached cx.cache node).isSome ↔ (serial, node) ∈ t.log.map Accepted.key)

theorem Tracked.move_same {after : Continuation F}
  (h : t.serials.length = after.contexts.length) : t.move after = { t with cont := after } := by
 unfold Tracked.move
 grind

theorem Tracks.start (h : Continuation.new g = some cont) (memory : σ) :
  Tracks fl g (Tracked.start cont memory) := by
 have hd : Disciplined fl g cont := Disciplined.empty h
 unfold Continuation.new at h
 rw [map_eq_some_iff] at h
 obtain ⟨root, -, hcont⟩ := h
 cases hcont
 refine { disciplined := hd, length := rfl, nodup := nodup_singleton _, old := ?_,
          logged := nofun, keys := nodup_nil, effects := ?_ }
 · intro s hs
   rw [mem_singleton.1 hs]
   exact Nat.one_pos
 · intro i cx serial hcx hserial node kind hkind heff
   have hmem := mem_of_getElem? hcx
   rw [mem_singleton.1 hmem, cached_replicate]
   simp [Tracked.start]

/-- Values of nodes without an effect, and values in contexts that do not change, leave the log
alone. -/
theorem Tracks.same {after : Continuation F} (h : Tracks fl g t)
  (hd : Disciplined fl g after) (hlen : after.contexts.length = t.cont.contexts.length)
  (hcached : ∀ (i : Nat) (cx cx' : EvalContext F), t.cont.contexts[i]? = some cx →
   after.contexts[i]? = some cx' → ∀ node kind, kindOf g node = some kind →
    kind.effectful = true → cached cx'.cache node = cached cx.cache node) :
  Tracks fl g (t.move after) := by
 rw [Tracked.move_same (h.length.trans hlen.symm)]
 refine { disciplined := hd, length := h.length.trans hlen.symm, nodup := h.nodup, old := h.old,
          logged := h.logged, keys := h.keys, effects := ?_ }
 intro i cx' serial hcx' hserial node kind hkind heff
 have hi : i < t.cont.contexts.length := hlen ▸ (List.getElem?_eq_some_iff.1 hcx').1
 rw [hcached i _ cx' (getElem?_eq_getElem hi) hcx' node kind hkind heff]
 exact h.effects i _ serial (getElem?_eq_getElem hi) hserial node kind hkind heff

theorem Tracks.next {after : Continuation F} (h : Tracks fl g t)
  (hm : Move fl g false t.cont after) : Tracks fl g (t.move after) := by
 have hd : Disciplined fl g after := h.disciplined.move hm
 obtain ⟨cont, memory, serials, fresh, log⟩ := t
 have hkeep : ∀ (contexts : List (EvalContext F)) (i : Nat) (cx cx' : EvalContext F),
   contexts[i]? = some cx → contexts[i]? = some cx' → ∀ node kind, kindOf g node = some kind →
    kind.effectful = true → cached cx'.cache node = cached cx.cache node := by
  grind
 generalize heffect : false = effect at hm
 cases hm with
 | pop => exact h.same hd rfl (hkeep _)
 | replace => exact h.same hd rfl (hkeep _)
 | push => exact h.same hd rfl (hkeep _)
 | @store root contexts f rest value kind hkind hcomplete =>
  refine h.same hd (setCache_length ..) ?_
  intro i cx cx' hcx hcx' node kind' hkind' heff
  rw [getElem?_setCache contexts f.inContext f.target i (some value) hcx] at hcx'
  cases hcx'
  split
  · grind [cached_set_ne]
  · rfl
 | @enter root contexts f f' rest body args hbody hnode hcontext hlane hok =>
  have hlen : serials.length = contexts.length := h.length
  have hmove : ({ cont := ⟨root, contexts, f :: rest⟩, memory := memory, serials := serials,
                  fresh := fresh, log := log } : Tracked F σ).move
     ⟨root, contexts ++ [⟨replicate g.len none, args⟩],
      .node body contexts.length 0 :: f' :: rest⟩ =
    { cont := ⟨root, contexts ++ [⟨replicate g.len none, args⟩],
      .node body contexts.length 0 :: f' :: rest⟩,
      memory := memory, serials := serials ++ [fresh], fresh := fresh + 1, log := log } := by
   unfold Tracked.move
   rw [if_pos (by simp [hlen])]
  rw [hmove]
  refine { disciplined := hd, length := by simp [hlen], nodup := ?_, old := ?_, logged := ?_,
           keys := h.keys, effects := ?_ }
  · refine nodup_append.2 ⟨h.nodup, nodup_singleton _, ?_⟩
    intro s hs s' hs'
    rw [mem_singleton.1 hs']
    exact Nat.ne_of_lt (h.old s hs)
  · intro s hs
    rcases mem_append.1 hs with hold | hnew
    · exact lt_succ_of_lt (h.old s hold)
    grind
  · exact fun e he => lt_succ_of_lt (h.logged e he)
  · intro i cx serial hcx hserial node kind hkind heff
    by_cases hi : i < contexts.length
    · rw [getElem?_append_left hi] at hcx
      rw [getElem?_append_left (by omega)] at hserial
      exact h.effects i cx serial hcx hserial node kind hkind heff
    · -- The new context has no values, and nothing is logged under its serial number.
      have hnew : i = contexts.length := by
       grind
      subst hnew
      rw [getElem?_concat_length] at hcx
      rw [← hlen, getElem?_concat_length] at hserial
      cases hcx
      cases hserial
      rw [cached_replicate]
      refine iff_of_false nofun fun hin => ?_
      obtain ⟨e, he, hkey⟩ := List.mem_map.1 hin
      have hlt := h.logged e he
      have heq : e.context = fresh := congrArg Prod.fst hkey
      exact absurd hlt (heq ▸ lt_irrefl _)
 | @leave root contexts f f' rest i hi hnode hcontext hlane hok =>
  have hlen : serials.length = contexts.length := h.length
  have hmove : ({ cont := ⟨root, contexts, f :: rest⟩, memory := memory, serials := serials,
                  fresh := fresh, log := log } : Tracked F σ).move
     ⟨root, contexts.take i, f' :: rest⟩ =
    { cont := ⟨root, contexts.take i, f' :: rest⟩, memory := memory,
      serials := serials.take (contexts.take i).length, fresh := fresh, log := log } := by
   unfold Tracked.move
   rw [if_neg (by simp [hlen])]
  rw [hmove]
  refine { disciplined := hd, length := ?_, nodup := ?_, old := ?_, logged := h.logged,
           keys := h.keys, effects := ?_ }
  · simp [hlen]
  · exact h.nodup.sublist (take_sublist _ _)
  · exact fun s hs => h.old s (mem_of_mem_take hs)
  · intro j cx serial hcx hserial node kind hkind heff
    rw [getElem?_take] at hcx hserial
    split at hcx
    · split at hserial
      · exact h.effects j cx serial hcx hserial node kind hkind heff
      · cases hserial
    · cases hcx

theorem Tracks.accepted {after : Continuation F} {op : MemoryOp}
  {reply : op.Reply → Option (Continuation F)} {answer : op.Reply} (h : Tracks fl g t)
  (hs : t.cont.step fl g symbols = .submit op reply) (hr : reply answer = some after) (memory' : σ) :
  Tracks fl g { t.move after with memory := memory', log := t.log ++ [t.entry op] } := by
 obtain ⟨node, context, k, rest, value, kind, hcont, hafter, hkind, heff, hcomplete⟩ :=
  move_submit h.disciplined hs hr
 have hd : Disciplined fl g after := by
  have hstore : Move fl g kind.effectful t.cont after := by
   rw [hcont, hafter]
   exact Move.store (f := EvalFrame.node node context k) hkind hcomplete
  exact h.disciplined.move hstore
 have hstack : t.cont.stack = .node node context k :: rest := congrArg Continuation.stack hcont
 have hfits := h.disciplined.frames (.node node context k) (hstack ▸ (.head _))
 obtain ⟨cx, hcx, hnone, -⟩ := hfits.context
 change cached cx.cache node = none at hnone
 have hlen := h.length
 have hin : context < t.cont.contexts.length := (List.getElem?_eq_some_iff.1 hcx).1
 obtain ⟨serial, hserial⟩ : ∃ serial, t.serials[context]? = some serial :=
  ⟨_, getElem?_eq_getElem (by omega)⟩
 have hent : t.entry op = ⟨serial, node, op⟩ := by
  unfold Tracked.entry
  grind
 -- The node had no value before, so nothing was logged for it in this context.
 have hnew : (serial, node) ∉ t.log.map Accepted.key := by
  intro hin
  have := (h.effects context cx serial hcx hserial node kind hkind heff).2 hin
  grind
 subst hafter
 rw [Tracked.move_same (by simp [setCache_length, hlen]), hent]
 refine { disciplined := hd, length := by simp [setCache_length, hlen], nodup := h.nodup,
          old := h.old, logged := ?_, keys := ?_, effects := ?_ }
 · intro e he
   rcases mem_append.1 he with hold | hlast
   · exact h.logged e hold
   · rw [mem_singleton.1 hlast]
     exact h.old serial (mem_of_getElem? hserial)
 · rw [map_append]
   refine nodup_append.2 ⟨h.keys, nodup_singleton _, ?_⟩
   intro key hkey key' hkey'
   rw [map_singleton, mem_singleton] at hkey'
   rw [hkey']
   intro heq
   rw [heq] at hkey
   exact hnew hkey
 · intro i cx' serial' hcx' hserial' node' kind' hkind' heff'
   have hi : i < t.cont.contexts.length := by
    grind
   have hold := h.effects i _ serial' (getElem?_eq_getElem hi) hserial' node' kind' hkind' heff'
   rw [getElem?_setCache _ context node i (some value) (getElem?_eq_getElem hi),
    some.injEq] at hcx'
   subst hcx'
   rw [map_append, mem_append, ← hold, map_singleton, mem_singleton]
   -- Serial numbers tell the contexts apart, so only the new entry is about the stored node.
   by_cases hci : context = i
   · rw [if_pos hci]
     subst hci
     have hcx' : t.cont.contexts[context] = cx :=
      some.inj ((getElem?_eq_getElem hi).symm.trans hcx)
     rw [hserial] at hserial'
     cases hserial'
     rw [hcx']
     by_cases hnode : node = node'
     · subst hnode
       have hlt : node < cx.cache.length :=
        (h.disciplined.caches cx (mem_of_getElem? hcx)).symm ▸ hfits.inGraph
       simp [cached_set_self hlt, Accepted.key]
     · rw [cached_set_ne cx.cache hnode]
       exact ⟨.inl, fun hor => hor.elim id fun hkey => absurd (congrArg Prod.snd hkey).symm hnode⟩
   · rw [if_neg hci]
     refine ⟨.inl, fun hor => hor.elim id fun hkey => absurd ?_ hci⟩
     have heq : serial' = serial := congrArg Prod.fst hkey
     have hrng : context < t.serials.length := by omega
     exact (getElem?_inj hrng h.nodup).1 (hserial.trans (heq ▸ hserial'.symm))

variable {memory : σ} (h : Reached fl g symbols backend memory t)

include h

theorem Reached.tracks
  : Tracks fl g t := by
 induction h with
 | start h => exact Tracks.start h memory
 | next _ hs ih => exact ih.next (move_next ih.disciplined hs)
 | rejected _ _ ih => exact ih
 | accepted _ hs _ hr ih => exact ih.accepted hs hr _

/-- Whatever is rejected, every effect is accepted exactly once per context. -/
theorem Reached.exactlyOnce
  : ExactlyOnce fl g t := by
 have ht := h.tracks
 refine { serials := ⟨ht.nodup, ht.length⟩, atMostOnce := ht.keys, once := ?_,
          complete := ht.disciplined.complete }
 intro i cx serial hcx hserial node kind hkind heff
 have hiff := ht.effects i cx serial hcx hserial node kind hkind heff
 split
 · rename_i hsome
   exact count_eq_one_of_mem ht.keys (hiff.1 hsome)
 grind

end Tir.Lang
