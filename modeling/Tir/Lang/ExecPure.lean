import Tir.Lang.Resume

/-!
# Evaluating a pure integer expression

`executePure` evaluates every operand of a node, checks the operands through the integers they stand for and then
calls the interpreter's own evaluator. It gives up on a kind it does not support, a symbol it does not have and
operands out of bounds. `Means` is what a pure expression stands for, with no cache and no order of evaluation.
-/

open List Option Bool

namespace Tir.Lang

open Tir.Adt Value APInt EvalRule

variable {V F σ : Type} (fl : Floats F) (g : Graph V F) (symbols : List (Value F))

/-! ## The function -/

/-- How an evaluation ends without a value: it returns `None`, it panics, or the fuel is over. -/
inductive Stop where
 | unsupported | panicked | unfinished
 deriving DecidableEq, Repr

/-- The integers the operands stand for, up to the first that stands for none; the outer option is the panic of
raw bits without bytes. -/
def integerViews : List (Value F) → Option (Option (List APInt))
 | [] => some (some [])
 | value :: rest => do
   match ← value.integerView with
   | none => some none
   | some v => do
     let others ← integerViews rest
     some (others.map (v :: ·))

/-- The widths of a concatenation add up to a `u64`. -/
def concatFits : List APInt → Bool
 | first :: second :: _ => decide (first.width + second.width < 2 ^ 64)
 | _ => false

def validOperands (kind : SymKind) (operands : List APInt) : Bool :=
 match scalarOp kind with
 | some op =>
  operands.length == op.arity && (kind != .concat || concatFits operands)
 | none =>
  match kind, operands with
  | .log2Ceil, [_] => true
  | .ite, [condition, _, _] => condition.width == 1
  | .clamp, [value, min, max] => value.width == min.width && value.width == max.width
  | .sext, [value, width] => decide (value.width ≤ width.toU64) && decide (width.toU64 < 2 ^ 32)
  | .zext, [value, width] => decide (value.width ≤ width.toU64) && decide (width.toU64 < 2 ^ 32)
  | .extract, [value, high, low] => decide (low.toU64 ≤ high.toU64) && decide (high.toU64 < value.width)
  | _, _ => false

/-- The check in front of the evaluator; `none` is a panic. -/
def validNode (kind : SymKind) (operands : List (Value F)) : Option Bool :=
 if kind = .bitcast then
  some (match operands with
   | [.int _] | [.float _] | [.rawBits _] => true
   | _ => false)
 else
  (integerViews operands).map fun views =>
   match views with
   | none => false
   | some ints => validOperands kind ints

/-- The value of a symbol or an integer constant: the inner option is a symbol that is not there. -/
def leafValue (n : DagNode SymKind (SymPayload V F)) : Option (Option (Value F)) :=
 match n.label, n.leaf with
 | .symbol, some (.symbolId id) => some symbols[id]?
 | .constant, some (.int v) => some (some (.int v))
 | _, _ => none

/-- The value of a node whose operands are there. -/
def pureNode (n : DagNode SymKind (SymPayload V F)) (node : Nat) (operands : List (Value F)) (cache : Cache F) :
  Except Stop (Value F) :=
 match leafValue symbols n with
 | some none => .error .unsupported
 | some (some value) => if operands.isEmpty then .ok value else .error .unsupported
 | none =>
  match validNode n.label operands with
  | none => .error .panicked
  | some false => .error .unsupported
  | some true =>
   match evalReady fl g node symbols cache [] with
   | some (.value value) => .ok value
   | _ => .error .panicked

/-- The children one after the other, up to the first without a value. -/
def pureChildren (ev : Nat → Cache F → Except Stop (Value F × Cache F)) :
  List Nat → Cache F → Except Stop (List (Value F) × Cache F)
 | [], cache => .ok ([], cache)
 | child :: rest, cache =>
  match ev child cache with
  | .error stop => .error stop
  | .ok (value, cache') =>
   match pureChildren ev rest cache' with
   | .error stop => .error stop
   | .ok (values, cache'') => .ok (value :: values, cache'')

def evalPureNode : Nat → Nat → Cache F → Except Stop (Value F × Cache F)
 | 0, _, _ => .error .unfinished
 | fuel + 1, node, cache =>
  match g.nodes[node]?, cached cache node with
  | none, _ => .error .panicked
  | some _, some value => .ok (value, cache)
  | some n, none =>
   match pureChildren (evalPureNode fuel) n.children cache with
   | .error stop => .error stop
   | .ok (operands, cache') =>
    match pureNode fl g symbols n node operands cache' with
    | .error stop => .error stop
    | .ok value => .ok (value, cache'.set node (some value))

def executePure : Except Stop APInt :=
 match g.root with
 | none => .error .unsupported
 | some root =>
  match evalPureNode fl g symbols g.len root (replicate g.len none) with
  | .error stop => .error stop
  | .ok (value, _) =>
   match value.integerView with
   | none => .error .panicked
   | some none => .error .unsupported
   | some (some v) => .ok v

/-! ## What an expression means -/

/-- The value of a supported operation on the values of its operands; `none` where the evaluator reads an integer
that is not one. -/
def meaning (kind : SymKind) (values : List (Value F)) : Option (Value F) :=
 let c := fun i : Nat => values[i]?
 match evalDivrem kind c with
 | none => none
 | some (some value) => some value
 | some none =>
  match evalScalar kind c with
  | none => none
  | some (some value) => some value
  | some none =>
   match kind with
   | .ite | .clamp => evalControl fl kind c
   | .extract => do
     let value ← (← asRawBits fl (← c 0)).toAPInt
     let high := (← (← c 1).asInt).toU64
     let low := (← (← c 2).asInt).toU64
     some (.int (← value.extractBits high low))
   | _ => evalMath fl g 0 [] kind c

/-- A node stands for a value: a leaf for its own, a supported operation for its meaning on what its operands
stand for. -/
inductive Means : Nat → Value F → Prop
 | leaf {node : Nat} {n : DagNode SymKind (SymPayload V F)} {value : Value F} (hn : g.nodes[node]? = some n)
   (hleaf : leafValue symbols n = some (some value)) (hkids : n.children = []) : Means node value
 | operation {node : Nat} {n : DagNode SymKind (SymPayload V F)} {values : List (Value F)} {value : Value F}
   (hn : g.nodes[node]? = some n) (hleaf : leafValue symbols n = none)
   (hlen : values.length = n.children.length)
   (hkids : ∀ (i child : Nat) (v : Value F), n.children[i]? = some child → values[i]? = some v → Means child v)
   (hvalid : validNode n.label values = some true) (hval : meaning fl g n.label values = some value) :
   Means node value

/-- The operands of a node stand for values. -/
structure OperandsMean (n : DagNode SymKind (SymPayload V F)) (values : List (Value F)) : Prop where
 length : values.length = n.children.length
 each : ∀ (i child : Nat) (v : Value F), n.children[i]? = some child → values[i]? = some v → Means fl g symbols child v

/-- The nodes the evaluation of a node looks at: an operand once the ones before it stand for values. -/
inductive Visits : Nat → Nat → Prop
 | self (node : Nat) : Visits node node
 | child {node child other i : Nat} {n : DagNode SymKind (SymPayload V F)} (hn : g.nodes[node]? = some n)
   (hchild : n.children[i]? = some child)
   (hbef : ∀ j < i, ∀ earlier, n.children[j]? = some earlier → ∃ v, Means fl g symbols earlier v)
   (hvisits : Visits child other) : Visits node other

def Value.isRaw : Value F → Bool
 | .rawBits _ => true
 | _ => false

/-- Raw bits with no byte stand for no integer. -/
def Value.isEmptyRaw : Value F → Bool
 | .rawBits r => r.size == 0
 | _ => false

def Value.isInteger : Value F → Bool
 | .int _ => true
 | .rawBits _ => true
 | _ => false

/-- The kinds whose evaluation takes raw bits apart from integers, with raw bits for an operand it reads. -/
def readsRaw : SymKind → List (Value F) → Bool
 | .log2Ceil, values => values.any Value.isRaw
 | .clamp, values => values.any Value.isRaw
 | .sext, values => values.any Value.isRaw
 | .zext, values => values.any Value.isRaw
 | .extract, _ :: bounds => bounds.any Value.isRaw
 | _, _ => false

/-- A node whose operands stand for raw bits where an integer is read: raw bits without bytes before the first
operand that is no integer, or checked operands of a kind that tells raw bits from integers. -/
def Faulty (node : Nat) : Prop :=
 ∃ n values, g.nodes[node]? = some n ∧ leafValue symbols n = none
  ∧ OperandsMean fl g symbols n values
  ∧ (n.label ≠ .bitcast ∧ (values.takeWhile Value.isInteger).any Value.isEmptyRaw = true
   ∨ validNode n.label values = some true ∧ readsRaw n.label values = true)

/-- A node the evaluation refuses: a symbol that is not there, a leaf with operands, or operands that fail the
check, as those of a kind that is not supported do. -/
def Refused (node : Nat) : Prop :=
 ∃ n values, g.nodes[node]? = some n ∧ OperandsMean fl g symbols n values
  ∧ (leafValue symbols n = some none ∨ (leafValue symbols n).isSome ∧ values ≠ []
   ∨ leafValue symbols n = none ∧ validNode n.label values = some false)

/-- No node looked at is faulty, and the root does not stand for raw bits without bytes. -/
def ReadsIntegers : Prop :=
 ∀ root, g.root = some root → (∀ node, Visits fl g symbols root node → ¬ Faulty fl g symbols node)
  ∧ ∀ v : Value F, Means fl g symbols root v → v.isEmptyRaw = false

/-! ## Operands -/

theorem integerView_eq_none {value : Value F} : value.integerView = none ↔ value.isEmptyRaw = true := by
 cases value with
 | rawBits r =>
  simp only [integerView, RawBits.toAPInt, isEmptyRaw, beq_iff_eq]
  by_cases h : 0 < 8 * r.size
  · grind
  grind
 | int v => simp [integerView, isEmptyRaw]
 | float v => simp [integerView, isEmptyRaw]
 | iterator elements => simp [integerView, isEmptyRaw]

variable {values : List (Value F)} {a b : APInt} {ints : List APInt} {v : Value F} {kind : SymKind} {op : ScalarOp}
 {c : Nat → Option (Value F)}

theorem integerViews_eq_none :
  integerViews values = none ↔ (values.takeWhile Value.isInteger).any Value.isEmptyRaw = true := by
 induction values with
 | nil => simp [integerViews]
 | cons value rest ih =>
  cases value with
  | int v =>
   simp only [integerViews, integerView, bind_eq_bind, bind_some, isInteger, takeWhile_cons,
    if_true, any_cons, isEmptyRaw, Bool.false_or, ← ih]
   cases integerViews rest <;> simp
  | float v => simp [integerViews, integerView, isInteger]
  | iterator elements => simp [integerViews, integerView, isInteger]
  | rawBits r =>
   have hview := @integerView_eq_none F (.rawBits r)
   simp only [integerViews, bind_eq_bind, isInteger, takeWhile_cons, if_true, any_cons,
    or_eq_true, ← ih, ← hview]
   cases hv : (rawBits r : Value F).integerView with
   | none => simp
   | some view =>
    cases view with
    | none => simp [integerView] at hv
    | some v => cases integerViews rest <;> simp

theorem integerViews_cons (h : integerViews values = some (some (a :: ints))) :
  ∃ v rest, values = v :: rest ∧ v.integerView = some (some a) ∧ integerViews rest = some (some ints) := by
 cases values with
 | nil => exact absurd h (by simp [integerViews])
 | cons v rest =>
  simp only [integerViews, bind_eq_bind, bind_eq_some_iff] at h
  obtain ⟨view, hview, h⟩ := h
  cases view with
  | none => nomatch h
  | some b =>
   simp only [bind_eq_some_iff, some.injEq, map_eq_some_iff, List.cons.injEq] at h
   grind

theorem integerViews_nil (h : integerViews values = some (some [])) : values = [] := by
 cases values with
 | nil => rfl
 | cons v rest =>
  simp only [integerViews, bind_eq_bind, bind_eq_some_iff] at h
  obtain ⟨view, hview, h⟩ := h
  cases view with
  | none => nomatch h
  | some b => simp [bind_eq_some_iff] at h

/-- The operands that pass the check, kind by kind. -/
inductive Checked : SymKind → List (Value F) → Prop
 | scalar {kind : SymKind} {op : ScalarOp} {values : List (Value F)} {ints : List APInt} (hop : scalarOp kind = some op)
   (hviews : integerViews values = some (some ints)) (hlen : ints.length = op.arity) : Checked kind values
 | bitcast {v : Value F} {r : RawBits} (hr : asRawBits fl v = some r) : Checked .bitcast [v]
 | log2Ceil {v : Value F} {a : APInt} (hv : v.integerView = some (some a)) : Checked .log2Ceil [v]
 | ite {a : APInt} {v w : Value F} : Checked .ite [.int a, v, w]
 | clamp {v low high : Value F} {a b d : APInt} (hv : v.integerView = some (some a)) (hlow : low.integerView = some (some b))
   (hhigh : high.integerView = some (some d)) (hb : a.width = b.width) (hd : a.width = d.width) :
   Checked .clamp [v, low, high]
 | extend {kind : SymKind} {v width : Value F} {a b : APInt} (hkind : kind = .sext ∨ kind = .zext)
   (hv : v.integerView = some (some a)) (hwid : width.integerView = some (some b)) (hle : a.width ≤ b.toU64) :
   Checked kind [v, width]
 | extract {v high low : Value F} {a b d : APInt} (hv : v.integerView = some (some a))
   (hhigh : high.integerView = some (some b)) (hlow : low.integerView = some (some d)) (hle : d.toU64 ≤ b.toU64)
   (hlt : b.toU64 < a.width) : Checked .extract [v, high, low]

/-- A one-bit operand is an integer: raw bits have whole bytes. -/
theorem int_of_width_one (h : v.integerView = some (some a)) (hwid : a.width = 1) : v = .int a := by
 cases v with
 | int b =>
  cases h
  rfl
 | float f => exact absurd h (by simp [integerView])
 | iterator elements => exact absurd h (by simp [integerView])
 | rawBits r =>
  simp only [integerView, RawBits.toAPInt, map_eq_some_iff, some.injEq] at h
  obtain ⟨b, hb, rfl⟩ := h
  split at hb
  · grind
  · nomatch hb

theorem checked_of_valid (h : validNode kind values = some true) :
  Checked fl kind values := by
 unfold validNode at h
 split at h
 next hbitcast =>
  subst hbitcast
  rw [some.injEq] at h
  split at h
  · exact .bitcast rfl
  · exact .bitcast rfl
  · exact .bitcast rfl
  · nomatch h
 next hbitcast =>
  rw [map_eq_some_iff] at h
  obtain ⟨views, hviews, h⟩ := h
  cases views with
  | none => nomatch h
  | some ints =>
   change validOperands kind ints = true at h
   unfold validOperands at h
   split at h
   next op hop =>
    rw [and_eq_true, beq_iff_eq] at h
    exact .scalar hop hviews h.1
   next hop =>
    split at h
    next a =>
     obtain ⟨v, rest, rfl, hv, hrest⟩ := integerViews_cons hviews
     rw [integerViews_nil hrest]
     exact .log2Ceil hv
    next a b d =>
     obtain ⟨v, rest, rfl, hv, hrest⟩ := integerViews_cons hviews
     obtain ⟨w, rest, rfl, hw, hrest⟩ := integerViews_cons hrest
     obtain ⟨x, rest, rfl, hx, hrest⟩ := integerViews_cons hrest
     rw [integerViews_nil hrest, int_of_width_one hv (beq_iff_eq.mp h)]
     exact .ite
    next a b d =>
     obtain ⟨v, rest, rfl, hv, hrest⟩ := integerViews_cons hviews
     obtain ⟨w, rest, rfl, hw, hrest⟩ := integerViews_cons hrest
     obtain ⟨x, rest, rfl, hx, hrest⟩ := integerViews_cons hrest
     rw [and_eq_true, beq_iff_eq, beq_iff_eq] at h
     rw [integerViews_nil hrest]
     exact .clamp hv hw hx h.1 h.2
    next a b =>
     obtain ⟨v, rest, rfl, hv, hrest⟩ := integerViews_cons hviews
     obtain ⟨w, rest, rfl, hw, hrest⟩ := integerViews_cons hrest
     rw [and_eq_true, decide_eq_true_iff] at h
     rw [integerViews_nil hrest]
     exact .extend (.inl rfl) hv hw h.1
    next a b =>
     obtain ⟨v, rest, rfl, hv, hrest⟩ := integerViews_cons hviews
     obtain ⟨w, rest, rfl, hw, hrest⟩ := integerViews_cons hrest
     rw [and_eq_true, decide_eq_true_iff] at h
     rw [integerViews_nil hrest]
     exact .extend (.inr rfl) hv hw h.1
    next a b d =>
     obtain ⟨v, rest, rfl, hv, hrest⟩ := integerViews_cons hviews
     obtain ⟨w, rest, rfl, hw, hrest⟩ := integerViews_cons hrest
     obtain ⟨x, rest, rfl, hx, hrest⟩ := integerViews_cons hrest
     rw [and_eq_true, decide_eq_true_iff, decide_eq_true_iff] at h
     rw [integerViews_nil hrest]
     exact .extract hv hw hx h.1 h.2
    next => nomatch h

/-! ## The table of integer operators has a value -/

theorem widen_width {width : Nat} (h : a.width ≤ width) : ∃ b, widen a width = some b ∧ b.width = width := by
 rw [widen]
 split
 next hle => exact ⟨a, rfl, le_antisymm h hle⟩
 next =>
  split
  next => exact ⟨_, by rw [signExtend, dif_pos h], rfl⟩
  next => exact ⟨_, by rw [zeroExtend, dif_pos h], rfl⟩

theorem coerceInts_width (a b : APInt) : ∃ x y, coerceInts a b = some (x, y) ∧ y.width = x.width := by
 obtain ⟨x, hx, hxw⟩ := widen_width (le_max_left a.width b.width)
 obtain ⟨y, hy, hyw⟩ := widen_width (le_max_right a.width b.width)
 exact ⟨x, y, by simp [coerceInts, hx, hy], hyw.trans hxw.symm⟩

theorem zipWith_isSome (f : {w : Nat} → BitVec w → BitVec w → BitVec w) (signed : Bool) (h : b.width = a.width) :
  ∃ r, APInt.zipWith f signed a b = some r :=
 ⟨_, dif_pos h⟩

theorem compareWith_isSome (f : {w : Nat} → BitVec w → BitVec w → Bool) (h : b.width = a.width) :
  ∃ r, APInt.compareWith f a b = some r :=
 ⟨_, dif_pos h⟩

theorem divide_isSome (f : {w : Nat} → BitVec w → BitVec w → BitVec w) (signed : Bool) (h : b.width = a.width)
  (hzero : b.isZero = false) : ∃ r, APInt.divide f signed a b = some r := by
 rw [APInt.divide, hzero]
 exact zipWith_isSome f signed h

/-- The rules of division: the interpreter takes them before the table. -/
def EvalRule.divides : EvalRule → Bool
 | .sdiv | .udiv | .srem | .urem => true
 | _ => false

def EvalRule.unary : EvalRule → Bool
 | .neg | .not => true
 | _ => false

theorem concat_isSome (a b : APInt) : ∃ r, (do
  let high ← a.zeroExtend (a.width + b.width)
  let low ← b.zeroExtend (a.width + b.width)
  (high.shl b.width).or low) = some r := by
 have ha : a.width ≤ a.width + b.width := Nat.le_add_right _ _
 have hb : b.width ≤ a.width + b.width := Nat.le_add_left _ _
 simp only [APInt.zeroExtend, dif_pos ha, dif_pos hb, bind_eq_bind, bind_some]
 apply zipWith_isSome
 rw [APInt.shl]
 split
 · rfl
 · rfl

theorem evalBinary_isSome (hdivides : op.eval.divides = false) (hunary : op.eval.unary = false) (a b : APInt) :
  ∃ r, op.evalBinary a b = some r := by
 obtain ⟨x, y, hxy, hw⟩ := coerceInts_width a b
 simp only [ScalarOp.evalBinary, hxy, bind_eq_bind, bind_some]
 cases hrule : op.eval with
 | add => exact zipWith_isSome _ _ hw
 | sub => exact zipWith_isSome _ _ hw
 | mul => exact zipWith_isSome _ _ hw
 | or => exact zipWith_isSome _ _ hw
 | and => exact zipWith_isSome _ _ hw
 | xor => exact zipWith_isSome _ _ hw
 | xnor =>
  obtain ⟨r, hr⟩ := zipWith_isSome (· ^^^ ·) (x.signed && y.signed) hw
  exact ⟨r.not, by rw [APInt.xor, hr]; rfl⟩
 | concat => exact concat_isSome a b
 | sdiv => exact absurd hdivides (by simp [hrule, EvalRule.divides])
 | udiv => exact absurd hdivides (by simp [hrule, divides])
 | srem => exact absurd hdivides (by simp [hrule, divides])
 | urem => exact absurd hdivides (by simp [hrule, divides])
 | neg => exact absurd hunary (by simp [hrule, unary])
 | not => exact absurd hunary (by simp [hrule, unary])
 | eq => exact ⟨_, rfl⟩
 | ne => exact ⟨_, rfl⟩
 | shl => exact ⟨_, rfl⟩
 | ashr => exact ⟨_, rfl⟩
 | lshr => exact ⟨_, rfl⟩
 | slt => exact ⟨_, by rw [APInt.slt, APInt.compareWith, dif_pos hw]; rfl⟩
 | sle => exact ⟨_, by rw [APInt.sle, APInt.compareWith, dif_pos hw]; rfl⟩
 | sgt => exact ⟨_, by rw [APInt.sgt, APInt.compareWith, dif_pos hw]; rfl⟩
 | sge => exact ⟨_, by rw [APInt.sge, APInt.compareWith, dif_pos hw]; rfl⟩
 | ult => exact ⟨_, by rw [APInt.ult, APInt.compareWith, dif_pos hw]; rfl⟩
 | ule => exact ⟨_, by rw [APInt.ule, APInt.compareWith, dif_pos hw]; rfl⟩
 | ugt => exact ⟨_, by rw [APInt.ugt, APInt.compareWith, dif_pos hw]; rfl⟩
 | uge => exact ⟨_, by rw [APInt.uge, APInt.compareWith, dif_pos hw]; rfl⟩

theorem integerOperands_eq {k : Nat} (hc : ∀ i, c (k + i) = values[i]?) (h : integerViews values = some (some ints)) :
  integerOperands c (List.range' k ints.length) = some (some ints) := by
 induction ints generalizing values k with
 | nil => rfl
 | cons a ints ih =>
  obtain ⟨v, rest, rfl, hv, hrest⟩ := integerViews_cons h
  have hhead : c k = some v := hc 0
  have htail := ih (k := k + 1) (fun i => by rw [add_assoc, add_comm 1]; exact hc (i + 1)) hrest
  simp [range'_succ, integerOperands, hhead, hv, htail]

theorem evalScalar_eq
  (hop : scalarOp kind = some op) (hviews : integerViews values = some (some ints)) (hlen : ints.length = op.arity) :
  evalScalar kind (fun i => values[i]?) = (op.evalInt ints).map fun v => some (.int v) := by
 have hops := integerOperands_eq (c := fun i => values[i]?) (k := 0) (fun i => by rw [zero_add]) hviews
 rw [hlen, ← range_eq_range'] at hops
 simp [evalScalar, hop, hops]

def SymKind.divides : SymKind → Bool
 | .div | .udiv | .srem | .urem => true
 | _ => false

theorem scalarOp_shape (h : scalarOp kind = some op) : op.arity = 1 ∧ op.eval.unary = true ∧ kind.divides = false
   ∨ op.arity = 2 ∧ op.eval.unary = false ∧ op.eval.divides = kind.divides := by
 cases kind <;> cases h <;> decide

theorem evalInt_isSome (hop : scalarOp kind = some op)
  (hdivides : kind.divides = false) (hlen : ints.length = op.arity) : ∃ r, op.evalInt ints = some r := by
 rcases scalarOp_shape hop with ⟨harity, hunary, -⟩ | ⟨harity, hunary, heval⟩
 · rw [harity] at hlen
   obtain ⟨a, rfl⟩ := length_eq_one_iff.mp hlen
   rw [ScalarOp.evalInt, if_pos harity, ScalarOp.evalUnary]
   cases hrule : op.eval with
   | neg => exact ⟨_, rfl⟩
   | not => exact ⟨_, rfl⟩
   | _ =>
    rw [hrule] at hunary
    nomatch hunary
 · rw [harity] at hlen
   obtain ⟨a, b, rfl⟩ := length_eq_two.mp hlen
   rw [ScalarOp.evalInt, if_pos harity]
   exact evalBinary_isSome (heval.trans hdivides) hunary a b

theorem evalDivrem_none (h : kind.divides = false) (c : Nat → Option (Value F)) :
  evalDivrem kind c = some none := by
 cases kind <;> first | rfl | nomatch h

theorem evalDivrem_isSome (h : kind.divides = true) {w : Value F}
  (hv : c 0 = some v) (hw : c 1 = some w) (ha : v.integerView = some (some a)) (hb : w.integerView = some (some b)) :
  ∃ r, evalDivrem kind c = some (some (.int r)) := by
 obtain ⟨x, y, hxy, hwid⟩ := coerceInts_width a b
 have hpos := x.width_pos
 cases hzero : y.isZero with
 | true =>
  cases kind with
  | div =>
   cases hneg : (x.withSigned true).isNegative <;>
    simp [evalDivrem, hv, hw, ha, hb, hxy, hzero, hneg, newSigned, hpos]
  | udiv => simp [evalDivrem, hv, hw, ha, hb, hxy, hzero]
  | srem => simp [evalDivrem, hv, hw, ha, hb, hxy, hzero]
  | urem => simp [evalDivrem, hv, hw, ha, hb, hxy, hzero]
  | _ => nomatch h
 | false =>
  cases kind with
  | div =>
   obtain ⟨r, hr⟩ := divide_isSome BitVec.sdiv true hwid hzero
   exact ⟨r, by simp [evalDivrem, hv, hw, ha, hb, hxy, hzero, APInt.sdiv, hr]⟩
  | udiv =>
   obtain ⟨r, hr⟩ := divide_isSome BitVec.udiv false hwid hzero
   exact ⟨r, by simp [evalDivrem, hv, hw, ha, hb, hxy, hzero, APInt.udiv, hr]⟩
  | srem =>
   obtain ⟨r, hr⟩ := divide_isSome BitVec.srem true hwid hzero
   exact ⟨r, by simp [evalDivrem, hv, hw, ha, hb, hxy, hzero, APInt.srem, hr]⟩
  | urem =>
   obtain ⟨r, hr⟩ := divide_isSome BitVec.umod false hwid hzero
   exact ⟨r, by simp [evalDivrem, hv, hw, ha, hb, hxy, hzero, APInt.urem, hr]⟩
  | _ => nomatch h

/-! ## The meaning of checked operands -/

theorem asInt_of_notRaw (h : v.integerView = some (some a)) (hraw : v.isRaw = false) :
  v = .int a := by
 cases v with
 | int b =>
  cases h
  rfl
 | float f => exact absurd h (by simp [integerView])
 | iterator elements => exact absurd h (by simp [integerView])
 | rawBits r => nomatch hraw

/-- The bits of an operand as whole bytes hold the integer it stands for. -/
theorem asRawBits_of_view (h : v.integerView = some (some a)) :
  ∃ r b, asRawBits fl v = some r ∧ r.toAPInt = some b ∧ a.width ≤ b.width := by
 cases v with
 | int c =>
  cases h
  have hpos := a.width_pos
  have hbytes : 0 < 8 * (RawBits.fromAPInt a).size := by
   have hsize : (RawBits.fromAPInt a).size = (a.width + 7) / 8 := rfl
   omega
  refine ⟨_, _, rfl, dif_pos hbytes, ?_⟩
  have hwid : 8 * (RawBits.fromAPInt a).size = 8 * ((a.width + 7) / 8) := rfl
  grind
 | float f => exact absurd h (by simp [integerView])
 | iterator elements => exact absurd h (by simp [integerView])
 | rawBits r =>
  simp only [integerView, map_eq_some_iff, some.injEq] at h
  obtain ⟨b, hb, rfl⟩ := h
  exact ⟨r, b, rfl, hb, le_rfl⟩

theorem asInt_of_raw (h : v.isRaw = true) : v.asInt = none := by
 cases v with
 | rawBits r => rfl
 | int a => nomatch h
 | float f => nomatch h
 | iterator elements => nomatch h

/-- Checked operands have a value, raw bits read as integers apart. -/
theorem meaning_isSome (h : Checked fl kind values)
  (hraw : readsRaw kind values = false) : ∃ v, meaning fl g kind values = some v := by
 cases h with
 | @scalar kind op values ints hop hviews hlen =>
  cases hdivides : kind.divides with
  | true =>
   rcases scalarOp_shape hop with ⟨-, -, hnot⟩ | ⟨harity, -, -⟩
   · grind
   · rw [harity] at hlen
     obtain ⟨a, b, rfl⟩ := length_eq_two.mp hlen
     obtain ⟨v, rest, rfl, hv, hrest⟩ := integerViews_cons hviews
     obtain ⟨w, rest, rfl, hw, hrest⟩ := integerViews_cons hrest
     obtain ⟨r, hr⟩ := evalDivrem_isSome hdivides (c := fun i => (v :: w :: rest)[i]?) rfl rfl hv hw
     exact ⟨.int r, by simp [meaning, hr]⟩
  | false =>
   obtain ⟨r, hr⟩ := evalInt_isSome hop hdivides hlen
   refine ⟨.int r, ?_⟩
   simp [meaning, evalDivrem_none hdivides, evalScalar_eq hop hviews hlen, hr]
 | @bitcast v r hr => exact ⟨.rawBits r, by simp [meaning, evalDivrem, evalScalar, scalarOp, evalMath, hr]⟩
 | @log2Ceil v a hv =>
  have hint := asInt_of_notRaw hv (by simpa [readsRaw] using hraw)
  subst hint
  simp [meaning, evalDivrem, evalScalar, scalarOp, evalMath, asInt, new, a.width_pos]
 | @ite a v w =>
  cases hzero : a.isZero <;>
   simp [meaning, evalDivrem, evalScalar, scalarOp, evalControl, scalarIsZero, hzero]
 | @clamp v low high a b d hv hlow hhigh hb hd =>
  simp only [readsRaw, any_cons, any_nil, Bool.or_false, or_eq_false_iff] at hraw
  have hint := asInt_of_notRaw hv hraw.1
  have hint' := asInt_of_notRaw hlow hraw.2.1
  have hint'' := asInt_of_notRaw hhigh hraw.2.2
  subst hint hint' hint''
  obtain ⟨p, hp⟩ := compareWith_isSome BitVec.slt hb.symm
  obtain ⟨q, hq⟩ := compareWith_isSome (fun x y => BitVec.slt y x) hd.symm
  obtain ⟨p', hp'⟩ := compareWith_isSome BitVec.ult hb.symm
  obtain ⟨q', hq'⟩ := compareWith_isSome (fun x y => BitVec.ult y x) hd.symm
  have hslt : a.slt b = some p := hp
  have hsgt : a.sgt d = some q := hq
  have hult : a.ult b = some p' := hp'
  have hugt : a.ugt d = some q' := hq'
  have hcontrol : meaning fl g .clamp [.int a, .int b, .int d] = evalControl fl .clamp (fun i => [int a, .int b, .int d][i]?) := rfl
  rw [hcontrol]
  cases hs : a.signed with
  | true => cases p <;> cases q <;> simp [evalControl, asInt, hs, hslt, hsgt]
  | false => cases p' <;> cases q' <;> simp [evalControl, asInt, hs, hult, hugt]
 | @extend kind v width a b hkind hv hwid hle =>
  have hnot : v.isRaw = false ∧ width.isRaw = false := by
   rcases hkind with rfl | rfl
   · simpa [readsRaw] using hraw
   · simpa [readsRaw] using hraw
  have hint := asInt_of_notRaw hv hnot.1
  have hint' := asInt_of_notRaw hwid hnot.2
  subst hint hint'
  have hle' : (a.withSigned true).width ≤ b.toU64 := hle
  rcases hkind with rfl | rfl
  · simp [meaning, evalDivrem, evalScalar, scalarOp, evalMath, asInt, signExtend, hle']
  · simp [meaning, evalDivrem, evalScalar, scalarOp, evalMath, asInt, zeroExtend, hle]
 | @extract v high low a b d hv hhigh hlow hle hlt =>
  simp only [readsRaw, any_cons, any_nil, Bool.or_false, or_eq_false_iff] at hraw
  have hint := asInt_of_notRaw hhigh hraw.1
  have hint' := asInt_of_notRaw hlow hraw.2
  subst hint hint'
  obtain ⟨r, e, hr, he, hwid⟩ := asRawBits_of_view fl hv
  have hbounds : d.toU64 ≤ b.toU64 ∧ b.toU64 < e.width := ⟨hle, hlt.trans_le hwid⟩
  simp [meaning, evalDivrem, evalScalar, scalarOp, asInt, hr, he, extractBits, hbounds]

theorem readsRaw_scalar (h : scalarOp kind = some op) (values : List (Value F)) :
  readsRaw kind values = false := by
 cases kind <;> first | rfl | nomatch h

/-- The evaluator has no value where it reads raw bits as an integer. -/
theorem meaning_eq_none (h : Checked fl kind values)
  (hraw : readsRaw kind values = true) : meaning fl g kind values = none := by
 cases h with
 | @scalar kind op values ints hop hviews hlen =>
  grind [readsRaw_scalar]
 | bitcast hr => nomatch hraw
 | @log2Ceil v a hv =>
  have hint := asInt_of_raw (v := v) (by simpa [readsRaw] using hraw)
  simp [meaning, evalDivrem, evalScalar, scalarOp, evalMath, hint]
 | ite => nomatch hraw
 | @clamp v low high a b d hv hlow hhigh hb hd =>
  simp only [readsRaw, any_cons, any_nil, Bool.or_false, or_eq_true] at hraw
  rcases hraw with hr | hr | hr
  · simp [meaning, evalDivrem, evalScalar, scalarOp, evalControl, asInt_of_raw hr]
  · simp [meaning, evalDivrem, evalScalar, scalarOp, evalControl, asInt_of_raw hr]
  · simp [meaning, evalDivrem, evalScalar, scalarOp, evalControl, asInt_of_raw hr]
 | @extend kind v width a b hkind hv hwid hle =>
  have hor : v.isRaw = true ∨ width.isRaw = true := by
   rcases hkind with rfl | rfl
   · simpa [readsRaw] using hraw
   · simpa [readsRaw] using hraw
  rcases hkind with rfl | rfl <;> rcases hor with hr | hr <;>
   simp [meaning, evalDivrem, evalScalar, scalarOp, evalMath, asInt_of_raw hr]
 | @extract v high low a b d hv hhigh hlow hle hlt =>
  simp only [readsRaw, any_cons, any_nil, Bool.or_false, or_eq_true] at hraw
  rcases hraw with hr | hr
  · simp [meaning, evalDivrem, evalScalar, scalarOp, asInt_of_raw hr]
  · simp [meaning, evalDivrem, evalScalar, scalarOp, asInt_of_raw hr]

end Tir.Lang
