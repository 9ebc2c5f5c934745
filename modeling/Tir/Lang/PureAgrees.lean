import Mathlib
import Tir.Lang.ExecPure

/-!
# The pure evaluation against the interpreter

The eager evaluation gives every node it looks at the value it stands for, and panics exactly at a faulty node.
The interpreter, which looks at one arm of a conditional only, comes to the same value.
-/

open List Option Nat Relation Bool

namespace Tir.Lang

open Tir.Adt Continuation

variable {V F σ : Type} (fl : Floats F) (g : Graph V F) (symbols : List (Value F))

/-! ## The evaluator on checked operands -/

section Ready

variable {node : Nat} {n : DagNode SymKind (SymPayload V F)} {cache : Cache F} {values : List (Value F)}

theorem evalExtract_eq {v high low : Value F} {a b d : APInt} (hv : v.integerView = some (some a))
  (hlow : low.integerView = some (some d)) (hle : d.toU64 ≤ b.toU64) (hlt : b.toU64 < a.width) {source : Nat} (hsrc : (children g node)[0]? = some source) :
  evalExtract fl g node cache (fun i => [v, high, low][i]?) = meaning fl g .extract [v, high, low] := by
 obtain ⟨r, e, hr, he, hwid⟩ := asRawBits_of_view fl hv
 have hmeaning : meaning fl g .extract [v, high, low] = (do
   let value ← (← asRawBits fl v).toAPInt
   let h := (← high.asInt).toU64
   let l := (← low.asInt).toU64
   some (.int (← value.extractBits h l))) := rfl
 rw [hmeaning, evalExtract]
 simp only [getElem?_cons_zero, getElem?_cons_succ, bind_eq_bind, bind_some, hr, he, hsrc]
 cases hh : high.asInt with
 | none => rfl
 | some h =>
  cases hl : low.asInt with
  | none => rfl
  | some l =>
   have hlow' : l = d := by
    cases low with
    | int x =>
     cases hl
     cases hlow
     rfl
    | _ => nomatch hl
   -- The slice starts below the width: the product is not recomputed.
   have hinside : ¬ (e.width ≤ l.toU64 ∧ kindOf g source = some .mul) := by
    grind
   simp [hinside]

/-- The interpreter's evaluator gives checked operands their meaning. -/
theorem evalReady_eq (hn : g.nodes[node]? = some n) (hc : ∀ i, childVal g node i cache = values[i]?)
  (hvalid : validNode n.label values = some true) :
  evalReady fl g node symbols cache [] = (meaning fl g n.label values).map .value := by
 have hkind : kindOf g node = some n.label := by rw [kindOf, hn]; rfl
 have hfun : (fun i => childVal g node i cache) = fun i => values[i]? := funext hc
 have hchecked := checked_of_valid fl hvalid
 rw [evalReady, hkind]
 simp only [bind_eq_bind, bind_some, hfun]
 generalize n.label = kind at hchecked
 cases hchecked with
 | @scalar kind op values ints hop hviews hlength =>
  simp only [meaning]
  cases hdiv : evalDivrem kind fun i => values[i]? with
  | none => rfl
  | some divided =>
   cases divided with
   | some v => rfl
   | none =>
    rw [evalScalar_eq hop hviews hlength]
    cases hint : op.evalInt ints with
    | none => rfl
    | some r => rfl
 | bitcast hr => rfl
 | log2Ceil hv => rfl
 | ite => rfl
 | clamp hv hlow hhigh hb hd => rfl
 | extend hkind hv hwid hle => rcases hkind with rfl | rfl <;> rfl
 | @extract v high low a b d hv hhigh hlow hle hlt =>
  have hfst : childVal g node 0 cache = some v := hc 0
  simp only [childVal, bind_eq_bind, bind_eq_some_iff] at hfst
  obtain ⟨source, hsrc, -⟩ := hfst
  exact (congrArg (Option.map Ready.value) (evalExtract_eq fl g hv hlow hle hlt hsrc) :)

end Ready

/-! ## Meanings -/

variable {fl g symbols}

variable {n : DagNode SymKind (SymPayload V F)} {node : Nat} {v : Value F} {values : List (Value F)} {cache : Cache F}

theorem leafValue_unlabelled {v : Option (Value F)}
  (h : leafValue symbols n = some v) : n.label = .symbol ∨ n.label = .constant := by
 rw [leafValue] at h
 split at h
 next hlabel _ => exact .inl hlabel
 next hlabel _ => exact .inr hlabel
 next => nomatch h

/-- An expression stands for one value at most. -/
theorem Means.unique {w : Value F} (hv : Means fl g symbols node v) (hw : Means fl g symbols node w) :
  v = w := by
 induction hv generalizing w with
 | leaf hn hleaf hkids =>
  cases hw with
  | leaf hn' hleaf' _ =>
   grind
  | operation hn' hleaf' _ _ _ _ =>
   grind
 | @operation node n values value hn hleaf hlength hkids hvalid hval ih =>
  cases hw with
  | leaf hn' hleaf' _ =>
   grind
  | @operation _ _ values' _ hn' hleaf' hlength' hkids' hvalid' hval' =>
   rw [hn, some.injEq] at hn'
   subst hn'
   have hsame : values = values' := by
    apply ext_getElem (hlength.trans hlength'.symm)
    intro i hi hi'
    have hchild : n.children[i]? = some (n.children.get ⟨i, hlength ▸ hi⟩) := getElem?_eq_getElem _
    exact ih i _ _ hchild (getElem?_eq_getElem hi) (hkids' i _ _ hchild (getElem?_eq_getElem hi'))
   grind

theorem OperandsMean.unique {values' : List (Value F)}
  (h : OperandsMean fl g symbols n values) (h' : OperandsMean fl g symbols n values') : values = values' := by
 apply ext_getElem (h.length.trans h'.length.symm)
 intro i hi hi'
 have hchild : n.children[i]? = some (n.children.get ⟨i, h.length ▸ hi⟩) := getElem?_eq_getElem _
 exact Means.unique (h.each i _ _ hchild (getElem?_eq_getElem hi)) (h'.each i _ _ hchild (getElem?_eq_getElem hi'))

theorem OperandsMean.exists
  (h : OperandsMean fl g symbols n values) {i child : Nat} (hchild : n.children[i]? = some child) :
  ∃ v, values[i]? = some v ∧ Means fl g symbols child v := by
 have hi : i < values.length := by
  rw [h.length]
  exact (List.getElem?_eq_some_iff.mp hchild).1
 exact ⟨values[i], getElem?_eq_getElem hi, h.each i child _ hchild (getElem?_eq_getElem hi)⟩

theorem Means.operands (h : Means fl g symbols node v)
  (hn : g.nodes[node]? = some n) : ∃ values, OperandsMean fl g symbols n values := by
 cases h with
 | leaf hn' _ hkids =>
  rw [hn, some.injEq] at hn'
  subst hn'
  exact ⟨[], by rw [hkids]; rfl, fun i child w hchild => by rw [hkids] at hchild; exact absurd hchild (by simp)⟩
 | operation hn' _ hlength hkids _ _ =>
  rw [hn, some.injEq] at hn'
  subst hn'
  exact ⟨_, hlength, hkids⟩

/-- Every node looked at in the evaluation of an expression with a value has a value. -/
theorem Visits.means {other : Nat} (h : Visits fl g symbols node other) (hv : Means fl g symbols node v) :
  ∃ w, Means fl g symbols other w := by
 induction h generalizing v with
 | self => exact ⟨v, hv⟩
 | child hn hchild _ _ ih =>
  obtain ⟨values, hvals⟩ := hv.operands hn
  obtain ⟨w, -, hw⟩ := hvals.exists hchild
  exact ih hw

theorem Refused.not_means (h : Refused fl g symbols node) (v : Value F) : ¬ Means fl g symbols node v := by
 intro hv
 obtain ⟨n, values, hn, hvals, hrefused⟩ := h
 cases hv with
 | leaf hn' hleaf hkids =>
  rw [hn, some.injEq] at hn'
  subst hn'
  rcases hrefused with hnone | ⟨-, hne⟩ | ⟨hnone, -⟩
  · grind
  · exact hne (eq_nil_of_length_eq_zero (by rw [hvals.length, hkids]; rfl))
  grind
 | operation hn' hleaf hlength hkids hvalid _ =>
  rw [hn, some.injEq] at hn'
  subst hn'
  rcases hrefused with hnone | ⟨hsome, -⟩ | ⟨-, hfalse⟩
  · grind
  · grind
  · have hsame := OperandsMean.unique hvals ⟨hlength, hkids⟩
    grind

/-! ## The eager evaluation -/

variable (fl g symbols)

/-- No node the evaluation of a node looks at is faulty. -/
def NoFault (node : Nat) : Prop := ∀ other, Visits fl g symbols node other → ¬ Faulty fl g symbols other

/-- Every value in the cache is the one its node stands for. -/
structure SoundCache (cache : Cache F) : Prop where
 length : cache.length = g.len
 means : ∀ j v, cached cache j = some v → Means fl g symbols j v ∧ NoFault fl g symbols j

/-- What an evaluation of a node says about the node. -/
inductive PureOutcome (node : Nat) (before : Cache F) : Except Stop (Value F × Cache F) → Prop
 | value {v : Value F} {after : Cache F} (hmeans : Means fl g symbols node v) (hfault : NoFault fl g symbols node)
   (hsound : SoundCache fl g symbols after) (hext : Extends before after) (hcached : cached after node = some v) :
   PureOutcome node before (.ok (v, after))
 | unsupported (hnot : ∀ v, ¬ Means fl g symbols node v) (hfault : NoFault fl g symbols node) :
   PureOutcome node before (.error .unsupported)
 | panicked {other : Nat} (hvisits : Visits fl g symbols node other) (hfaulty : Faulty fl g symbols other) :
   PureOutcome node before (.error .panicked)

/-- What an evaluation of operands says about them, up to the first without a value. -/
inductive ChildrenOutcome (children : List Nat) (before : Cache F) : Except Stop (List (Value F) × Cache F) → Prop
 | values {vs : List (Value F)} {after : Cache F} (hlength : vs.length = children.length)
   (heach : ∀ (i child : Nat) (v : Value F), children[i]? = some child → vs[i]? = some v →
    Means fl g symbols child v ∧ NoFault fl g symbols child ∧ cached after child = some v)
   (hsound : SoundCache fl g symbols after) (hext : Extends before after) :
   ChildrenOutcome children before (.ok (vs, after))
 | unsupported {i child : Nat} (hchild : children[i]? = some child) (hnot : ∀ v, ¬ Means fl g symbols child v)
   (hfault : ∀ j ≤ i, ∀ earlier, children[j]? = some earlier → NoFault fl g symbols earlier) :
   ChildrenOutcome children before (.error .unsupported)
 | panicked {i child other : Nat} (hchild : children[i]? = some child)
   (hbef : ∀ j < i, ∀ earlier, children[j]? = some earlier → ∃ v, Means fl g symbols earlier v)
   (hvisits : Visits fl g symbols child other) (hfaulty : Faulty fl g symbols other) :
   ChildrenOutcome children before (.error .panicked)

variable {fl g symbols}

theorem pureChildren_outcome {ev : Nat → Cache F → Except Stop (Value F × Cache F)} {children : List Nat}
  (hev : ∀ child ∈ children, ∀ cache, SoundCache fl g symbols cache → PureOutcome fl g symbols child cache (ev child cache))
  (hsound : SoundCache fl g symbols cache) : ChildrenOutcome fl g symbols children cache (pureChildren ev children cache) := by
 induction children generalizing cache with
 | nil => exact .values rfl nofun hsound (Extends.refl cache)
 | cons child rest ih =>
  have hfst := hev child mem_cons_self cache hsound
  rw [pureChildren]
  generalize ev child cache = first at hfst
  cases hfst with
  | unsupported hnot hfault =>
   refine .unsupported (i := 0) rfl hnot fun j hj earlier hearlier => ?_
   grind
  | panicked hvisits hfaulty => exact .panicked (i := 0) rfl (fun j hj => absurd hj (Nat.not_lt_zero j)) hvisits hfaulty
  | @value v after hmeans hfault hsound' hext hcached =>
   have hrest := ih (fun c hc => hev c (.tail _ hc)) hsound'
   dsimp only
   generalize pureChildren ev rest after = others at hrest
   cases hrest with
   | @values vs after' hlength heach hsound'' hext' =>
    refine .values (by simp [hlength]) (fun i c w hc hw => ?_) hsound'' (hext.trans hext')
    cases i with
    | zero =>
     cases hc
     cases hw
     exact ⟨hmeans, hfault, hext'.keeps _ _ hcached⟩
    | succ i => exact heach i c w hc hw
   | @unsupported i c hchild hnot hfaults =>
    refine .unsupported (i := i + 1) hchild hnot fun j hj earlier hearlier => ?_
    grind
   | @panicked i c other hchild hbef hvisits hfaulty =>
    refine .panicked (i := i + 1) hchild (fun j hj earlier hearlier => ?_) hvisits hfaulty
    grind

theorem validNode_eq_none {kind : SymKind} : validNode kind values = none
  ↔ kind ≠ .bitcast ∧ (values.takeWhile Value.isInteger).any Value.isEmptyRaw = true := by
 rw [← integerViews_eq_none]
 unfold validNode
 split
 next h => simp [h]
 next h => simp [h]

section Node

variable {node : Nat} {n : DagNode SymKind (SymPayload V F)}

theorem noFault_of_children (hn : g.nodes[node]? = some n) (hself : ¬ Faulty fl g symbols node)
  (hkids : ∀ i child : Nat, n.children[i]? = some child →
   (∀ j < i, ∀ earlier : Nat, n.children[j]? = some earlier → ∃ v, Means fl g symbols earlier v) → NoFault fl g symbols child) :
  NoFault fl g symbols node := by
 intro other hvisits
 cases hvisits with
 | self => exact hself
 | child hn' hchild hbef hvisits =>
  rw [hn, some.injEq] at hn'
  subst hn'
  exact hkids _ _ hchild hbef other hvisits

/-- The step of a node whose operands are there: its value is what it stands for, and it panics where it is faulty. -/
theorem pureNode_outcome {values : List (Value F)} {cache : Cache F} (hn : g.nodes[node]? = some n)
  (hvals : OperandsMean fl g symbols n values) (hc : ∀ i, childVal g node i cache = values[i]?) :
  match pureNode fl g symbols n node values cache with
  | .ok v => Means fl g symbols node v ∧ ¬ Faulty fl g symbols node
  | .error .unsupported => Refused fl g symbols node ∧ ¬ Faulty fl g symbols node
  | .error .panicked => Faulty fl g symbols node
  | .error .unfinished => False := by
 have hfaulty : Faulty fl g symbols node → leafValue symbols n = none ∧ (validNode n.label values = none
   ∨ validNode n.label values = some true ∧ readsRaw n.label values = true) := by
  rintro ⟨n', values', hn', hleaf', hvals', hcase⟩
  grind [OperandsMean.unique, validNode_eq_none]
 cases hleaf : leafValue symbols n with
 | some leaf =>
  have hnot : ¬ Faulty fl g symbols node := fun h => by
   grind
  cases leaf with
  | none =>
   simp only [pureNode, hleaf]
   exact ⟨⟨n, values, hn, hvals, .inl hleaf⟩, hnot⟩
  | some v =>
   simp only [pureNode, hleaf]
   cases hempty : values.isEmpty with
   | true =>
    have hnil : values = [] := List.isEmpty_iff.mp hempty
    have hkids : n.children = [] := eq_nil_of_length_eq_zero (by rw [← hvals.length, hnil]; rfl)
    exact ⟨.leaf hn hleaf hkids, hnot⟩
   | false =>
    have hne : values ≠ [] := fun h => by rw [h] at hempty; nomatch hempty
    exact ⟨⟨n, values, hn, hvals, .inr (.inl ⟨by rw [hleaf]; rfl, hne⟩)⟩, hnot⟩
 | none =>
  cases hvalid : validNode n.label values with
  | none =>
   simp only [pureNode, hleaf, hvalid]
   exact ⟨n, values, hn, hleaf, hvals, .inl (validNode_eq_none.mp hvalid)⟩
  | some valid =>
   cases valid with
   | false =>
    simp only [pureNode, hleaf, hvalid]
    refine ⟨⟨n, values, hn, hvals, .inr (.inr ⟨hleaf, hvalid⟩)⟩, fun h => ?_⟩
    rcases (hfaulty h).2 with hnone | ⟨htrue, -⟩
    · grind
    grind
   | true =>
    have hready := evalReady_eq fl g symbols hn hc hvalid
    have hchecked := checked_of_valid fl hvalid
    cases hraw : readsRaw n.label values with
    | true =>
     rw [meaning_eq_none fl g hchecked hraw] at hready
     simp only [pureNode, hleaf, hvalid, hready, map_none]
     exact ⟨n, values, hn, hleaf, hvals, .inr ⟨hvalid, hraw⟩⟩
    | false =>
     obtain ⟨v, hv⟩ := meaning_isSome fl g hchecked hraw
     rw [hv] at hready
     simp only [pureNode, hleaf, hvalid, hready, map_some]
     refine ⟨.operation hn hleaf hvals.length hvals.each hvalid hv, fun h => ?_⟩
     rcases (hfaulty h).2 with hnone | ⟨-, htrue⟩
     · grind
     grind

end Node

theorem childVal_eq (hn : g.nodes[node]? = some n) (hlength : values.length = n.children.length)
  (hcached : ∀ (i child : Nat) (v : Value F), n.children[i]? = some child → values[i]? = some v → cached cache child = some v) (i : Nat) :
  childVal g node i cache = values[i]? := by
 rw [childVal, children_eq hn]
 grind

theorem evalPureNode_outcome {fuel : Nat} (hfuel : node < fuel) (hnode : node < g.len)
  (hsound : SoundCache fl g symbols cache) :
  PureOutcome fl g symbols node cache (evalPureNode fl g symbols fuel node cache) := by
 induction fuel generalizing node cache with
 | zero => exact absurd hfuel (Nat.not_lt_zero node)
 | succ fuel ih =>
  obtain ⟨n, hn⟩ : ∃ n, g.nodes[node]? = some n := ⟨_, getElem?_eq_getElem hnode⟩
  rw [evalPureNode, hn]
  cases hcached : cached cache node with
  | some v =>
   obtain ⟨hmeans, hfault⟩ := hsound.means node v hcached
   exact .value hmeans hfault hsound (Extends.refl cache) hcached
  | none =>
   dsimp only
   have hev : ∀ child ∈ n.children, ∀ cache, SoundCache fl g symbols cache →
     PureOutcome fl g symbols child cache (evalPureNode fl g symbols fuel child cache) := by
    intro child hmem cache' hsound'
    have hlt := g.topological node n hn child hmem
    exact ih (by omega) (hlt.trans hnode) hsound'
   have hops := pureChildren_outcome hev hsound
   generalize pureChildren (evalPureNode fl g symbols fuel) n.children cache = operands at hops
   cases hops with
   | @unsupported i child hchild hnot hfaults =>
    -- The node has no value, and the operands past the first without one are not looked at.
    have hno : ∀ values, ¬ OperandsMean fl g symbols n values := fun values hvals => by
     obtain ⟨w, -, hw⟩ := hvals.exists hchild
     exact hnot w hw
    refine .unsupported (fun v hv => ?_) (noFault_of_children hn ?_ ?_)
    · obtain ⟨values, hvals⟩ := hv.operands hn
      exact hno values hvals
    · rintro ⟨n', values, hn', -, hvals, -⟩
      grind
    · intro j other hother hbef
      by_cases hj : j ≤ i
      · exact hfaults j hj other hother
      grind
   | panicked hchild hbef hvisits hfaulty => exact .panicked (.child hn hchild hbef hvisits) hfaulty
   | @values values after hlength heach hsound' hext =>
    have hvals : OperandsMean fl g symbols n values := ⟨hlength, fun i child v hchild hv => (heach i child v hchild hv).1⟩
    have hstep := pureNode_outcome hn hvals
     (childVal_eq hn hlength fun i child v hchild hv => (heach i child v hchild hv).2.2)
    have hbelow : ∀ i child : Nat, n.children[i]? = some child →
      (∀ j < i, ∀ earlier : Nat, n.children[j]? = some earlier → ∃ v, Means fl g symbols earlier v) →
      NoFault fl g symbols child := by
     intro i child hchild _
     obtain ⟨w, hw, -⟩ := hvals.exists hchild
     exact (heach i child w hchild hw).2.1
    dsimp only
    generalize pureNode fl g symbols n node values after = result at hstep
    cases result with
    | ok v =>
     obtain ⟨hmeans, hself⟩ := hstep
     have hfault := noFault_of_children hn hself hbelow
     have hlt : node < after.length := hsound'.length ▸ hnode
     refine .value hmeans hfault ⟨by rw [length_set, hsound'.length], fun j w hw => ?_⟩ ⟨?_, fun j w hw => ?_⟩
      (cached_set_self hlt _)
     · by_cases hj : node = j
       · grind [cached_set_self]
       · rw [cached_set_ne after hj] at hw
         exact hsound'.means j w hw
     · rw [length_set, hext.length]
     · have hj : node ≠ j := fun heq => by
        grind
       rw [cached_set_ne after hj]
       exact hext.keeps j w hw
    | error stop =>
     cases stop with
     | unsupported => exact .unsupported hstep.1.not_means (noFault_of_children hn hstep.2 hbelow)
     | panicked => exact .panicked (.self node) hstep
     | unfinished => exact absurd hstep id

/-! ## The lazy evaluation -/

section Lazy

variable {backend : Backend σ}

/-- No value in the cache of the interpreter is other than the one its node stands for. -/
structure AgreesWithMeanings (fl : Floats F) (g : Graph V F) (symbols : List (Value F)) (cache : Cache F) : Prop where
 length : cache.length = g.len
 agrees : ∀ j w v, cached cache j = some w → Means fl g symbols j v → w = v

/-- The interpreter gives a node the value it stands for. -/
def Evaluates (fl : Floats F) (g : Graph V F) (symbols : List (Value F)) (backend : Backend σ) (node : Nat) (v : Value F) :
  Prop :=
 ∀ fuel, node < fuel → ∀ cache memory, AgreesWithMeanings fl g symbols cache →
  ∃ after, evalNode fl g symbols backend fuel node [] cache memory = some (after, memory)
   ∧ AgreesWithMeanings fl g symbols after ∧ cached after node = some v

/-- A node that is not evaluated yet gets its value from its own evaluation. -/
theorem evaluates_of_plain {node : Nat} {n : DagNode SymKind (SymPayload V F)} {v : Value F} (hn : g.nodes[node]? = some n)
  (hmeans : Means fl g symbols node v) (hmap : n.label ≠ .map) (hreduce : n.label ≠ .reduce)
  (hplain : ∀ fuel, node ≤ fuel → ∀ cache memory, AgreesWithMeanings fl g symbols cache →
   ∃ after, evalOperands fl g (fun child => evalNode fl g symbols backend fuel child []) n.label node
     (n.children.length + 3) 0 cache memory = some (after, memory)
    ∧ AgreesWithMeanings fl g symbols after ∧ evalReady fl g node symbols after [] = some (.value v)) :
  Evaluates fl g symbols backend node v := by
 intro fuel hfuel cache memory hcache
 have hnode : node < g.len := (List.getElem?_eq_some_iff.mp hn).1
 obtain ⟨fuel, rfl⟩ := exists_eq_succ_of_ne_zero (ne_of_gt ((zero_le node).trans_lt hfuel))
 cases hcached : cached cache node with
 | some w =>
  refine ⟨cache, evalNode_skip (succ_pos fuel) hnode hcached, hcache, ?_⟩
  rw [hcached, hcache.agrees node w v hcached hmeans]
 | none =>
  obtain ⟨after, hops, hafter, hready⟩ := hplain fuel (le_of_lt_succ hfuel) cache memory hcache
  have hlt : node < after.length := hafter.length ▸ hnode
  refine ⟨after.set node (some v), ?_, ⟨by rw [length_set, hafter.length], fun j w u hw hu => ?_⟩, cached_set_self hlt _⟩
  · rw [evalNode, hn, hcached]
    simp [hmap, hreduce, evalPlain, hops, evalFinish, hready]
  · by_cases hj : node = j
    · subst hj
      rw [cached_set_self hlt, some.injEq] at hw
      rw [← hw]
      exact hmeans.unique hu
    · rw [cached_set_ne after hj] at hw
      exact hafter.agrees j w u hw hu

theorem childIndex_plain {kind : SymKind} (h : ¬ (kind = .ite ∨ kind = .switch)) (node k : Nat) (cache : Cache F) :
  Continuation.childIndex fl g kind node k cache = some (if k < (children g node).length then some k else none) := by
 unfold childIndex
 rw [if_neg h]

section Operands

variable {node : Nat} {n : DagNode SymKind (SymPayload V F)} {values : List (Value F)}
variable (hn : g.nodes[node]? = some n) (hvals : OperandsMean fl g symbols n values)
variable (heach : ∀ (i child : Nat) (v : Value F), n.children[i]? = some child → values[i]? = some v →
 Evaluates fl g symbols backend child v)

include hn heach

variable {cache : Cache F} {fuel : Nat}

theorem evalOperand {i child : Nat} {v : Value F} (hfuel : node ≤ fuel) (hchild : n.children[i]? = some child)
  (hv : values[i]? = some v) (memory : σ) (hcache : AgreesWithMeanings fl g symbols cache) :
  ∃ after, evalNode fl g symbols backend fuel child [] cache memory = some (after, memory)
   ∧ AgreesWithMeanings fl g symbols after ∧ Extends cache after ∧ cached after child = some v := by
 have hlt : child < node := g.topological node n hn child (mem_of_getElem? hchild)
 obtain ⟨after, heval, hafter, hcached⟩ := heach i child v hchild hv fuel (hlt.trans_le hfuel) cache memory hcache
 exact ⟨after, heval, hafter, (evalNode_evaluated fl g symbols backend hcache.length heval).ext, hcached⟩

include hvals

/-- Every operand of a node that is no choice. -/
theorem evalOperands_all (hfuel : node ≤ fuel) (hchoice : ¬ (n.label = .ite ∨ n.label = .switch)) (rest k : Nat)
  (hk : k + rest = n.children.length) (budget : Nat) (hbudget : rest < budget) (memory : σ)
  (hcache : AgreesWithMeanings fl g symbols cache)
  (hdone : ∀ i < k, ∀ (child : Nat) (v : Value F), n.children[i]? = some child → values[i]? = some v →
   cached cache child = some v) :
  ∃ after, evalOperands fl g (fun child => evalNode fl g symbols backend fuel child []) n.label node budget k cache memory
    = some (after, memory) ∧ AgreesWithMeanings fl g symbols after
   ∧ ∀ (i child : Nat) (v : Value F), n.children[i]? = some child → values[i]? = some v → cached after child = some v := by
 induction rest generalizing k budget cache with
 | zero =>
  obtain ⟨budget, rfl⟩ := exists_eq_succ_of_ne_zero (ne_of_gt hbudget)
  refine ⟨cache, ?_, hcache, fun i child v hchild hv => hdone i ?_ child v hchild hv⟩
  · rw [evalOperands, childIndex_plain hchoice, children_eq hn, if_neg (by omega)]
  grind
 | succ rest ih =>
  obtain ⟨budget, rfl⟩ := exists_eq_succ_of_ne_zero (ne_of_gt ((zero_le _).trans_lt hbudget))
  have hlt : k < n.children.length := by omega
  have hchild : n.children[k]? = some n.children[k] := getElem?_eq_getElem hlt
  obtain ⟨v, hv, -⟩ := hvals.exists hchild
  obtain ⟨next, heval, hnext, hext, hcached⟩ := evalOperand hn heach hfuel hchild hv memory hcache
  obtain ⟨after, hops, hafter, hall⟩ := ih (k + 1) (by omega) budget (by omega) hnext (fun i hi child w hc hw => by
   by_cases hik : i = k
   · grind
   · exact hext.keeps _ _ (hdone i (by omega) child w hc hw))
  refine ⟨after, ?_, hafter, hall⟩
  rw [evalOperands, childIndex_plain hchoice, children_eq hn, if_pos hlt]
  simp only [hchild, heval]
  exact hops

/-- A conditional: its condition, then the arm it chooses. -/
theorem evalOperands_ite (hfuel : node ≤ fuel) (hlabel : n.label = .ite) {a : APInt} {v w : Value F}
  (hthree : values = [.int a, v, w]) (memory : σ) (hcache : AgreesWithMeanings fl g symbols cache) :
  ∃ after, evalOperands fl g (fun child => evalNode fl g symbols backend fuel child []) n.label node (n.children.length + 3) 0
    cache memory = some (after, memory) ∧ AgreesWithMeanings fl g symbols after
   ∧ evalReady fl g node symbols after [] = some (.value (if a.isZero then w else v)) := by
 subst hthree
 have hlength : n.children.length = 3 := hvals.length.symm
 have hchild : ∀ i < 3, ∃ child, n.children[i]? = some child := fun i hi => ⟨_, getElem?_eq_getElem (by omega)⟩
 obtain ⟨condition, hcondition⟩ := hchild 0 (by decide)
 obtain ⟨first, heval, hfst, -, hcached⟩ := evalOperand hn heach hfuel hcondition rfl memory hcache
 have hzero : childVal g node 0 first = some (.int a) := by simp [childVal, children_eq hn, hcondition, hcached]
 -- The arm, by the condition.
 obtain ⟨k, arm, hk, hidx, harm⟩ : ∃ k arm, k < 3 ∧ k = (if a.isZero then 2 else 1) ∧ [Value.int a, v, w][k]? = some arm
   ∧ arm = if a.isZero then w else v := by
  cases a.isZero with
  | true => exact ⟨2, w, by decide, rfl, rfl, rfl⟩
  | false => exact ⟨1, v, by decide, rfl, rfl, rfl⟩
 obtain ⟨chosen, hchosen⟩ := hchild k hk
 obtain ⟨after, hevalArm, hafter, hext, hcachedArm⟩ := evalOperand hn heach hfuel hchosen harm.1 memory hfst
 have harmIndex : armIndex fl n.label (children g node).length (.int a) = some k := by
  rw [armIndex, if_pos hlabel, hidx]
  rfl
 have hstart : childIndex fl g n.label node 0 cache = some (some 0) := by
  unfold childIndex
  grind
 have hsnd : childIndex fl g n.label node 1 first = some (some k) := by
  unfold childIndex
  grind
 have hthird : childIndex fl g n.label node 2 after = some none := by
  unfold childIndex
  grind
 refine ⟨after, ?_, hafter, ?_⟩
 · rw [hlength]
   simp [evalOperands, hstart, children_eq hn, hcondition, heval, hsnd, hchosen, hevalArm,
    hthird]
 · have hzeroAfter : childVal g node 0 after = some (.int a) := by
    simp [childVal, children_eq hn, hcondition, hext.keeps _ _ hcached]
   have harmAfter : childVal g node k after = some arm := by simp [childVal, children_eq hn, hchosen, hcachedArm]
   have hkind : kindOf g node = some .ite := by rw [kindOf, hn, ← hlabel]; rfl
   have hcontrol : evalControl fl .ite (fun i => childVal g node i after) = some arm := by
    rw [hidx] at harmAfter
    cases hz : a.isZero with
    | true =>
     rw [hz] at harmAfter
     simp only [evalControl, hzeroAfter, bind_eq_bind, bind_some, scalarIsZero, hz, if_true]
     exact harmAfter
    | false =>
     rw [hz] at harmAfter
     simp only [evalControl, hzeroAfter, bind_eq_bind, bind_some, scalarIsZero, hz]
     exact harmAfter
   rw [evalReady, hkind, ← harm.2]
   have hother : evalOther fl g node .ite symbols after [] (fun i => childVal g node i after) = some (.value arm) := by
    rw [show evalOther fl g node .ite symbols after [] (fun i => childVal g node i after)
     = (evalControl fl .ite fun i => childVal g node i after).map Ready.value from rfl, hcontrol]
    rfl
   exact hother

end Operands

/-- The interpreter gives an expression the value it stands for. -/
theorem Means.evaluates {node : Nat} {v : Value F} (h : Means fl g symbols node v) : Evaluates fl g symbols backend node v := by
 induction h with
 | @leaf node n value hn hleaf hkids =>
  have hlabel := leafValue_unlabelled hleaf
  have hchoice : ¬ (n.label = .ite ∨ n.label = .switch) := by
   rcases hlabel with hl | hl <;> simp [hl]
  apply evaluates_of_plain hn (.leaf hn hleaf hkids)
  · rcases hlabel with hl | hl <;> simp [hl]
  · rcases hlabel with hl | hl <;> simp [hl]
  · intro fuel hfuel cache memory hcache
    refine ⟨cache, ?_, hcache, ?_⟩
    · rw [evalOperands, childIndex_plain hchoice, children_eq hn, hkids]
      rfl
    · have hkind : kindOf g node = some n.label := by rw [kindOf, hn]; rfl
      have hleafOf : leafOf g node = n.leaf := by rw [leafOf, hn]; rfl
      have heval : evalLeaf g node n.label symbols = some value := by
       unfold leafValue at hleaf
       unfold evalLeaf
       rw [hleafOf]
       split at hleaf
       next id hl hpayload =>
        grind
       next a hl hpayload =>
        grind
       next => nomatch hleaf
      have hother : evalReady fl g node symbols cache [] = (evalLeaf g node n.label symbols).map .value := by
       rw [evalReady, hkind]
       rcases hlabel with hl | hl
       · rw [hl]
         rfl
       · rw [hl]
         rfl
      rw [hother, heval]
      rfl
 | @operation node n values value hn hleaf hlength hkids hvalid hval ih =>
  have hvals : OperandsMean fl g symbols n values := ⟨hlength, hkids⟩
  have hmeans : Means fl g symbols node value := .operation hn hleaf hlength hkids hvalid hval
  have hchecked := checked_of_valid fl hvalid
  have hlabels : n.label ≠ .map ∧ n.label ≠ .reduce ∧ n.label ≠ .switch := by
   generalize n.label = kind at hchecked
   cases hchecked with
   | scalar hop _ _ =>
    refine ⟨?_, ?_, ?_⟩ <;>
    · rintro rfl
      nomatch hop
   | extend hkind => rcases hkind with rfl | rfl <;> simp
   | _ => simp
  apply evaluates_of_plain hn hmeans hlabels.1 hlabels.2.1
  intro fuel hfuel cache memory hcache
  by_cases hite : n.label = .ite
  · obtain ⟨a, v, w, hthree⟩ : ∃ a v w, values = [.int a, v, w] := by
     rw [hite] at hchecked
     cases hchecked with
     | scalar hop _ _ => nomatch hop
     | ite => exact ⟨_, _, _, rfl⟩
     | extend hkind => rcases hkind with h | h <;> nomatch h
    obtain ⟨after, hops, hafter, hready⟩ :=
     evalOperands_ite hn hvals ih hfuel hite hthree memory hcache
    refine ⟨after, hops, hafter, hready.trans ?_⟩
    rw [hite, hthree] at hval
    have hcontrol : meaning fl g .ite [.int a, v, w] = some (if a.isZero then w else v) := by
     cases hz : a.isZero <;> simp [meaning, evalDivrem, evalScalar, scalarOp, evalControl, scalarIsZero, hz]
    grind
  · obtain ⟨after, hops, hafter, hall⟩ := evalOperands_all hn hvals ih hfuel (fun h => h.elim hite hlabels.2.2)
     n.children.length 0 (zero_add _) (n.children.length + 3) (by omega) memory hcache (fun i hi => absurd hi (Nat.not_lt_zero i))
    refine ⟨after, hops, hafter, ?_⟩
    grind [evalReady_eq, childVal_eq]

end Lazy

/-! ## Runs of the interpreter -/

section Runs

variable {backend : Backend σ}

variable {x : Continuation F × σ}

/-- One accepted turn in front of a run. -/
theorem resumeLoop_turn {z : Continuation F × σ} (h : turn fl g symbols backend x = some z) (fuel : Nat)
  (accepted : List MemoryOp) : ∃ accepted', resumeLoop fl g symbols backend (fuel + 1) x.1 accepted x.2 []
   = settle z.1 (fun _ => resumeLoop fl g symbols backend fuel z.1 accepted' z.2 []) accepted' z.2 [] := by
 unfold turn at h
 conv in resumeLoop fl g symbols backend (fuel + 1) x.1 accepted x.2 [] => unfold resumeLoop
 split at h
 next => nomatch h
 next after hstep =>
  cases h
  exact ⟨accepted, by simp [hstep]⟩
 next op reply hstep =>
  cases haccept : backend.accept op x.2 with
  | none =>
   rw [haccept] at h
   cases h
  | some answer =>
   rw [haccept] at h
   rw [map_eq_some_iff] at h
   obtain ⟨after, hreply, rfl⟩ := h
   exact ⟨accepted ++ [op], by simp [hstep, haccept, hreply]⟩

/-- A run that comes to an empty stack and a value of the root returns it. -/
theorem resumeLoop_returns {y : Continuation F × σ} {v : Value F} (hturns : Turns fl g symbols backend x y)
  (hstack : y.1.stack = []) (hval : y.1.rootValue = some v) (hx : x.1.stack ≠ []) :
  ∃ fuel, ∀ accepted, (resumeLoop fl g symbols backend fuel x.1 accepted x.2 []).result = .returned v := by
 induction hturns using ReflTransGen.head_induction_on with
 | refl => exact absurd hstack hx
 | @head x z hturn _ ih =>
  by_cases hz : z.1.stack = []
  · -- An empty stack has no further turn: the run is over.
    have hlast : z = y := by
     by_contra hne
     rename_i hrest
     rcases ReflTransGen.cases_head hrest with heq | ⟨w, hw, -⟩
     · exact hne heq
     · have hturn' : turn fl g symbols backend z = none := by
        rw [turn, step, hz]
       grind
    subst hlast
    refine ⟨1, fun accepted => ?_⟩
    obtain ⟨accepted', hrun⟩ := resumeLoop_turn hturn 0 accepted
    rw [hrun, settle, hz]
    simp [hval]
  · obtain ⟨fuel, hfuel⟩ := ih hz
    refine ⟨fuel + 1, fun accepted => ?_⟩
    obtain ⟨accepted', hrun⟩ := resumeLoop_turn hturn fuel accepted
    rw [hrun, settle, if_neg (by simpa using hz)]
    exact hfuel accepted'

/-- The interpreter returns the value the root stands for. -/
theorem executeWithMemory_returns (backend : Backend σ) {root : Nat} (hroot : g.root = some root) {v : Value F} (h : Means fl g symbols root v)
  (memory : σ) : ∃ fuel, (executeWithMemory fl g symbols backend fuel memory).result = .returned v := by
 have hlen := Dag.root_eq_some hroot
 have hempty : AgreesWithMeanings fl g symbols (replicate g.len none) :=
  ⟨length_replicate, fun j w u hw _ => by rw [cached_replicate] at hw; exact absurd hw nofun⟩
 have hevaluates : Evaluates fl g symbols backend root v := h.evaluates
 obtain ⟨after, heval, -, hcached⟩ := hevaluates g.len (by omega) _ memory hempty
 have hleads : NodeLeads fl g symbols backend (evalNode fl g symbols backend g.len root) root :=
  leads_evalNode g.len root (by omega) (by omega)
 have hrun := hleads root [⟨replicate g.len none, []⟩] 0 ⟨replicate g.len none, []⟩ [] memory rfl (by simp)
 rw [heval, map_some] at hrun
 obtain ⟨fuel, hfuel⟩ := resumeLoop_returns (v := v) hrun rfl
  (by simp [rootValue, cacheOf, hcached]) (by simp)
 refine ⟨fuel, ?_⟩
 rw [executeWithMemory, new, hroot]
 exact hfuel []

end Runs

/-! ## When the pure evaluation does what it says -/

variable (fl g symbols)

/-- The evaluation returns; it returns nothing where it looks at a node it refuses; and a value it returns is the
integer that the interpreter's value stands for. -/
structure DoesNotPanic : Prop where
 returns : executePure fl g symbols = .error .unsupported ∨ ∃ v, executePure fl g symbols = .ok v
 refuses : ∀ root, g.root = some root → (∃ node, Visits fl g symbols root node ∧ Refused fl g symbols node) →
  executePure fl g symbols = .error .unsupported
 agrees : ∀ v, executePure fl g symbols = .ok v → ∃ fuel value,
  (executeWithMemory fl g symbols noMemory fuel ()).result = .returned value ∧ value.integerView = some (some v)

theorem executePure_of_root {root : Nat} (hroot : g.root = some root) :
  (∃ v, Means fl g symbols root v ∧ NoFault fl g symbols root ∧ executePure fl g symbols =
   (match v.integerView with
   | none => .error .panicked
   | some none => .error .unsupported
   | some (some a) => .ok a))
  ∨ (∀ v, ¬ Means fl g symbols root v) ∧ NoFault fl g symbols root ∧ executePure fl g symbols = .error .unsupported
  ∨ (∃ node, Visits fl g symbols root node ∧ Faulty fl g symbols node) ∧ executePure fl g symbols = .error .panicked := by
 have hlen := Dag.root_eq_some hroot
 have hempty : SoundCache fl g symbols (replicate g.len none) :=
  ⟨length_replicate, fun j w hw => by rw [cached_replicate] at hw; exact absurd hw nofun⟩
 have houtcome := evalPureNode_outcome (show root < g.len by omega) (by omega) hempty
 rw [executePure, hroot]
 dsimp only
 generalize evalPureNode fl g symbols g.len root (replicate g.len none) = result at houtcome
 cases houtcome with
 | @value v after hmeans hfault _ _ _ => exact .inl ⟨v, hmeans, hfault, rfl⟩
 | unsupported hnot hfault => exact .inr (.inl ⟨hnot, hfault, rfl⟩)
 | panicked hvisits hfaulty => exact .inr (.inr ⟨⟨_, hvisits, hfaulty⟩, rfl⟩)

/-- The pure evaluation returns without a panic, and agrees with the interpreter, exactly when no node it looks at
reads raw bits as an integer. -/
theorem doesNotPanic_iff : DoesNotPanic fl g symbols ↔ ReadsIntegers fl g symbols := by
 cases hroot : g.root with
 | none =>
  have hnone : executePure fl g symbols = .error .unsupported := by rw [executePure, hroot]
  have hclaim : DoesNotPanic fl g symbols :=
   ⟨.inl hnone, fun root h => by rw [hroot] at h; exact absurd h nofun, fun v h => by rw [hnone] at h; exact absurd h nofun⟩
  exact ⟨fun _ root h => by rw [hroot] at h; exact absurd h nofun, fun _ => hclaim⟩
 | some root =>
  have hrefused : (∃ node, Visits fl g symbols root node ∧ Refused fl g symbols node) → ∀ v, ¬ Means fl g symbols root v := by
   rintro ⟨node, hvisits, hno⟩ v hv
   obtain ⟨w, hw⟩ := hvisits.means hv
   exact hno.not_means w hw
  have hreads : ReadsIntegers fl g symbols ↔ NoFault fl g symbols root
    ∧ ∀ v : Value F, Means fl g symbols root v → v.isEmptyRaw = false := by
   constructor
   · exact fun h => h root hroot
   · intro h root' hroot'
     rw [hroot, some.injEq] at hroot'
     subst hroot'
     exact h
  rw [hreads]
  rcases executePure_of_root fl g symbols hroot with ⟨v, hmeans, hfault, hrun⟩ | ⟨hnot, hfault, hrun⟩ | ⟨⟨node, hvisits, hfaulty⟩, hrun⟩
  · constructor
    · intro hclaim
      refine ⟨hfault, fun w hw => ?_⟩
      rw [hw.unique hmeans]
      by_contra hempty
      rw [not_eq_false, ← integerView_eq_none] at hempty
      rw [hempty] at hrun
      rcases hclaim.returns with h | ⟨a, h⟩ <;>
      · rw [hrun] at h
        nomatch h
    · rintro ⟨-, hempty⟩
      have hview : v.integerView ≠ none := by
       rw [ne_eq, integerView_eq_none, hempty v hmeans]
       nofun
      cases hv : v.integerView with
      | none => exact absurd hv hview
      | some view =>
       rw [hv] at hrun
       refine ⟨?_, fun root' hroot' h => ?_, fun a ha => ?_⟩
       · cases view with
         | none => exact .inl hrun
         | some a => exact .inr ⟨a, hrun⟩
       · rw [hroot, some.injEq] at hroot'
         subst hroot'
         exact absurd hmeans (hrefused h v)
       · rw [hrun] at ha
         cases view with
         | none => nomatch ha
         | some b =>
          cases ha
          obtain ⟨fuel, hfuel⟩ := executeWithMemory_returns noMemory hroot hmeans ()
          exact ⟨fuel, v, hfuel, hv⟩
  · constructor
    · exact fun _ => ⟨hfault, fun v hv => absurd hv (hnot v)⟩
    · exact fun _ => ⟨.inl hrun, fun _ _ _ => hrun, fun v hv => by rw [hrun] at hv; exact absurd hv nofun⟩
  · constructor
    · intro hclaim
      rcases hclaim.returns with h | ⟨a, h⟩ <;>
      · rw [hrun] at h
        nomatch h
    · exact fun h => absurd hfaulty (h.1 node hvisits)

/-- No float occurs in the graph below. -/
def noFloats : Floats Empty where
 isZero := nofun
 add := nofun
 sub := nofun
 mul := nofun
 div := nofun
 minnum := nofun
 maxnum := nofun
 fma := nofun
 sqrt := nofun
 compare := nofun
 fromBits := fun _ _ _ => none
 toBits := nofun
 bitWidth := nofun
 convert := nofun
 fromInt := fun _ _ _ => none
 toI64 := nofun
 toU64 := nofun
 sqrtU64 := Nat.sqrt
 evalRounded := fun _ _ _ _ _ => none

/-- `sext(bitcast(5 : i8), 16)`. -/
def sextOfBits : Graph Empty Empty where
 nodes := [⟨.constant, [], some (.int ⟨8, by decide, false, 5#8⟩)⟩, ⟨.bitcast, [0], none⟩,
  ⟨.constant, [], some (.int ⟨64, by decide, false, 16#64⟩)⟩, ⟨.sext, [1, 2], none⟩]
 topological := by
  intro i n h
  rcases i with _ | _ | _ | _ | i
  · cases h
    simp
  · cases h
    simp
  · cases h
    simp
  · cases h
    simp
  · nomatch h

/-- The operands of the extension pass the check as integers, and the evaluator panics on the raw bits. -/
theorem sextOfBits_panics : ¬ DoesNotPanic noFloats sextOfBits [] := by
 have hrun : executePure noFloats sextOfBits [] = .error .panicked := by rfl
 intro h
 rcases h.returns with hnone | ⟨v, hv⟩
 · rw [hrun] at hnone
   nomatch hnone
 · rw [hrun] at hv
   nomatch hv

end Tir.Lang
