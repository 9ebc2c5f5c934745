import Tir.Egraph.Engine
import Tir.Relational.UnionFindValues

/-!
# What labels mean

A `Value` is an integer modulo the width of a carrier, or something that takes no offset. A `Meaning`
reads labels as functions on values, and an `Interpretation` is one that satisfies the laws each label
declares. `Meaning.env` gives every class the value of the node it was minted with.
-/

open List Option

namespace Tir.Egraph

open Tir.Relational

/-! ## Values -/

inductive Value (D : Type) where
 | word (carrier : Carrier) (offset : BitVec (min carrier.width 64))
 | other (d : D)

namespace Value

variable {D : Type}

instance : Inhabited (Value D) :=
 ⟨word ⟨0, 0⟩ 0⟩

def carrier : Value D → Option Carrier
 | word carrier _ => some carrier
 | other _ => none

def int (carrier : Carrier) (value : Word) : Value D :=
 word carrier (value.setWidth _)

theorem setWidth_and_mask (carrier : Carrier) (a : Word) :
  (a &&& carrier.mask).setWidth (min carrier.width 64) = a.setWidth (min carrier.width 64) := by
 apply BitVec.eq_of_toNat_eq
 rw [BitVec.toNat_setWidth, BitVec.toNat_setWidth, Carrier.mask, toNat_and_lowMask, Nat.mod_mod]

instance : Offsets (Value D) where
 shift
  | word carrier offset, a => word carrier (offset + a.setWidth _)
  | other d, _ => other d
 mask
  | word carrier _ => carrier.mask
  | other _ => 0
 isLowMask v := by
  cases v with
  | word carrier _ => exact isLowMask_lowMask carrier.width
  | other _ => exact isLowMask_zero
 shift_zero v := by
  cases v with
  | word carrier offset => simp
  | other _ => rfl
 shift_shift v a b := by
  cases v with
  | word carrier offset =>
   simp only [word.injEq, heq_eq_eq, true_and]
   rw [BitVec.setWidth_add a b (min_le_right _ _), add_assoc]
  | other _ => rfl
 shift_mask v a := by
  grind [setWidth_and_mask]
 mask_shift v a := by
  cases v with
  | word _ _ => rfl
  | other _ => rfl

theorem shift_int (carrier : Carrier) (value a : Word) :
  Offsets.shift (int carrier value : Value D) a = int carrier (value + a) := by
 show word carrier (value.setWidth _ + a.setWidth _) = word carrier _
 rw [BitVec.setWidth_add value a (min_le_right _ _)]

theorem int_and_mask (carrier : Carrier) (value : Word) :
  (int carrier (value &&& carrier.mask) : Value D) = int carrier value := by
 rw [int, setWidth_and_mask, int]

@[simp] theorem carrier_int (carrier : Carrier) (value : Word) : (int carrier value : Value D).carrier = some carrier :=
  rfl

@[simp] theorem carrier_shift (v : Value D) (a : Word) : (Offsets.shift v a).carrier = v.carrier := by
  cases v with
  | word _ _ => rfl
  | other _ => rfl

theorem mask_eq (v : Value D) : Offsets.mask v = v.carrier.elim 0 Carrier.mask := by
 cases v with
 | word _ _ => rfl
 | other _ => rfl

end Value

/-! ## Terms -/

/-- Every e-node names classes minted before it. -/
def Ordered {L : Type} (nodes : List (ENode L)) : Prop :=
 ∀ (id : Nat) node, nodes[id]? = some node → ∀ ref ∈ node.operands, ref.id < id

theorem Ordered.concat {L : Type} {nodes : List (ENode L)} (h : Ordered nodes) {node : ENode L}
  (hnode : ∀ ref ∈ node.operands, ref.id < nodes.length) : Ordered (nodes ++ [node]) := by
 intro id node' hin ref href
 rcases lt_or_ge id nodes.length with hlt | hge
 · rw [getElem?_append_left hlt] at hin
   exact h id node' hin ref href
 grind

theorem operands_eq {L : Type} {node : ENode L} {refs : List Ref} (hkids : node.children = refs.map Ref.id)
  (hoffsets : node.offsets = some (refs.map Ref.offset) ∨ node.offsets = none ∧ ∀ ref ∈ refs, ref.offset = 0) :
  node.operands = refs := by
 apply ext_getElem?
 intro at'
 rw [ENode.operands, getElem?_map, getElem?_zipIdx, hkids, getElem?_map]
 cases hget : refs[at']? with
 | none => rfl
 | some ref =>
  simp only [map_some, zero_add]
  congr 1
  rcases hoffsets with hsome | ⟨hnone, hzero⟩
  · simp_all
  · rw [hnone, getD_none, getD_nil]
    have hoff := hzero ref (mem_of_getElem? hget)
    cases ref
    exact congrArg _ hoff.symm

/-! ## Interpretations -/

/-- Labels read as functions on values. -/
structure Meaning (L D : Type) where
 apply : L → List (Value D) → Value D
 /-- The carriers of the operands a label is a function on. -/
 accepts : L → List (Option Carrier) → Prop
 /-- The value of the class a unique node was minted with. -/
 unknown : L → Nat → Value D

namespace Meaning

variable {L D : Type} [Label L] (I : Meaning L D)

/-- The operands a label that is not unique is a function on. -/
structure Takes (l : L) (args : List (Value D)) : Prop where
 unique : Label.unique l = false
 length : args.length = Label.arity l
 accepts : I.accepts l (args.map Value.carrier)

/-- The value of an e-node, the `id`-th one. -/
def valueOf (env : Nat → Value D) (id : Nat) (node : ENode L) : Value D :=
 if Label.unique node.label then I.unknown node.label id
 else I.apply node.label (node.operands.map (Ref.value env))

/-- The values of the classes, each minted with the next e-node. -/
def values (nodes : List (ENode L)) : List (Value D) :=
 nodes.foldl (fun values node => values ++ [I.valueOf (fun id => values.getD id default) values.length node]) []

def env (nodes : List (ENode L)) (id : Nat) : Value D :=
 (I.values nodes).getD id default

/-- A value of a node: any the label has where it is unique. -/
def Evaluates (l : L) (args : List (Value D)) (v : Value D) : Prop :=
 if Label.unique l then ∃ id, v = I.unknown l id else v = I.apply l args

end Meaning

/-- A meaning of the labels that satisfies the laws they declare. -/
structure Interpretation (L D : Type) [Label L] extends Meaning L D where
 carrier_apply : ∀ l args, toMeaning.Takes l args → (apply l args).carrier = Label.carrier l
 carrier_unknown : ∀ l id, Label.unique l = true → (unknown l id).carrier = Label.carrier l
 /-- An offset of an operand with a coefficient moves to the result. -/
 coefficient : ∀ l before v after k offset, toMeaning.Takes l (before ++ v :: after) → Label.carrier l ≠ none →
  Label.offsetCoefficient l before.length = some k →
  apply l (before ++ Offsets.shift v offset :: after) = Offsets.shift (apply l (before ++ v :: after)) (k * offset)
 /-- A linear label at zero is its bias. -/
 bias : ∀ l args c, toMeaning.Takes l args → Label.carrier l = some c → (Laws.of l).linear = true →
  (∀ arg ∈ args, ∃ carrier, arg = Value.int carrier 0) → apply l args = Value.int c (Label.bias l)
 identity_left : ∀ l c e carrier v, toMeaning.Takes l [Value.int carrier (e &&& c.mask), v] →
  Label.carrier l = some c → Label.identity l 0 = some e → apply l [Value.int carrier (e &&& c.mask), v] = v
 identity_right : ∀ l c e carrier v, toMeaning.Takes l [v, Value.int carrier (e &&& c.mask)] →
  Label.carrier l = some c → Label.identity l 1 = some e → apply l [v, Value.int carrier (e &&& c.mask)] = v
 commutes : ∀ l v w, toMeaning.Takes l [v, w] → Label.commutative l = true →
  toMeaning.Takes l [w, v] ∧ apply l [w, v] = apply l [v, w]
 /-- An integer constant is that integer. -/
 constant : ∀ l c value, Label.arity l = 0 → Label.carrier l = some c → Label.intValue l = some value →
  accepts l [] ∧ apply l [] = Value.int c value ∧
   ∀ id, Label.unique l = true → unknown l id = Value.int c value

/-! ## Valuations -/

namespace Meaning

variable {L D : Type} [Label L] {I : Meaning L D} {nodes : List (ENode L)}

/-- Every e-node has the value of its class. -/
def Models (I : Meaning L D) (env : Nat → Value D) (nodes : List (ENode L)) : Prop :=
 ∀ (id : Nat) node, nodes[id]? = some node → env id = I.valueOf env id node

theorem Models.shrink {env : Nat → Value D} {nodes' : List (ENode L)} (h : I.Models env nodes')
  (hgrown : nodes <+: nodes') : I.Models env nodes := by
 intro id node hin
 obtain ⟨rest, rfl⟩ := hgrown
 exact h id node ((getElem?_append_left (List.getElem?_eq_some_iff.1 hin).1).trans hin)

@[simp] theorem length_values (nodes : List (ENode L)) : (I.values nodes).length = nodes.length := by
  induction nodes using List.reverseRecOn with
  | nil => rfl
  | append_singleton nodes node ih =>
   rw [values, foldl_concat, length_append, length_append]
   show (I.values nodes).length + 1 = nodes.length + 1
   rw [ih]

theorem env_concat (node : ENode L) (id : Nat) : I.env (nodes ++ [node]) id =
  if id = nodes.length then I.valueOf (I.env nodes) nodes.length node else I.env nodes id := by
 have hvals : I.values (nodes ++ [node]) =
   I.values nodes ++ [I.valueOf (I.env nodes) (I.values nodes).length node] := by
  rw [values, foldl_concat]
  rfl
 rw [env, hvals, getD_eq_getElem?_getD]
 rcases lt_trichotomy id nodes.length with hlt | rfl | hgt
 · rw [getElem?_append_left (by rw [length_values]; exact hlt), if_neg (ne_of_lt hlt),
    ← getD_eq_getElem?_getD]
   rfl
 · grind [length_values]
 · rw [if_neg (ne_of_gt hgt), List.getElem?_eq_none, env, getD_eq_default]
   · rfl
   · rw [length_values]
     exact le_of_lt hgt
   grind [length_values]

theorem valueOf_congr {env env' : Nat → Value D} {node : ENode L} (h : ∀ ref ∈ node.operands, env ref.id = env' ref.id)
  (id : Nat) : I.valueOf env id node = I.valueOf env' id node := by
 rw [valueOf, valueOf]
 split
 · rfl
 · congr 1
   refine map_congr_left fun ref hin => ?_
   rw [Ref.value, Ref.value, h ref hin]

/-- Where every node names classes minted before it, the valuation is a model. -/
theorem models_env (h : Ordered nodes) :
  I.Models (I.env nodes) nodes := by
 induction nodes using List.reverseRecOn with
 | nil => nofun
 | append_singleton nodes node ih =>
  have hold : ∀ (id : Nat) node', nodes[id]? = some node' → (nodes ++ [node])[id]? = some node' := fun id node' hin =>
   (getElem?_append_left (List.getElem?_eq_some_iff.1 hin).1).trans hin
  have hlast : (nodes ++ [node])[nodes.length]? = some node := getElem?_concat_length
  have hbef : ∀ id, id ≠ nodes.length → I.env (nodes ++ [node]) id = I.env nodes id := fun id hne => by
   rw [env_concat, if_neg hne]
  intro id node' hin
  rcases lt_or_ge id nodes.length with hlt | hge
  · rw [getElem?_append_left hlt] at hin
    rw [hbef id (ne_of_lt hlt), ih (fun id node hin => h id node (hold id node hin)) id node' hin]
    refine valueOf_congr (fun ref href => (hbef ref.id ?_).symm) id
    have href' := h id node' (hold id node' hin) ref href
    omega
  · obtain rfl : id = nodes.length := by
     grind
    cases hlast.symm.trans hin
    rw [env_concat, if_pos rfl]
    refine valueOf_congr (fun ref href => (hbef ref.id ?_).symm) _
    exact ne_of_lt (h _ node hlast ref href)

end Meaning

/-! ## Bytes -/

inductive ByteLabel where
 | input (name : Nat)
 | number (value : BitVec 8)
 | sum
deriving DecidableEq

namespace ByteLabel

def byte : Carrier := ⟨8, 0⟩

instance : Label ByteLabel where
 decEq := inferInstance
 arity
  | sum => 2
  | _ => 0
 unique _ := false
 commutative
  | sum => true
  | _ => false
 carrier _ := some byte
 offsetCoefficient
  | sum, _ => some 1
  | _, _ => none
 bias _ := 0
 identity
  | sum, _ => some 0
  | _, _ => none
 intValue
  | number value => some (value.setWidth 64)
  | _ => none
 constantOf _ value := some (number (value.setWidth 8))
 constant _ := none
 carrier_key := by
  grind
 constantOf_congr := fun _ _ _ _ _ _ => rfl
 constantOf_spec := by
  rintro l c v z hc hz
  cases hc
  cases hz
  refine ⟨rfl, rfl, rfl, _, rfl, ?_⟩
  apply BitVec.eq_of_toNat_eq
  rw [Carrier.mask, toNat_and_lowMask, toNat_and_lowMask, BitVec.toNat_setWidth, BitVec.toNat_setWidth]
  show v.toNat % 2 ^ 8 % 2 ^ 64 % 2 ^ 8 = v.toNat % 2 ^ 8
  omega

def ofByte (b : BitVec 8) : Value Unit :=
 .word byte b

def toByte : Value Unit → BitVec 8
 | .word _ offset => offset.setWidth 8
 | .other _ => 0

@[simp] theorem toByte_ofByte (b : BitVec 8) : toByte (ofByte b) = b :=
  BitVec.setWidth_eq b

theorem eq_ofByte {v : Value Unit} (h : v.carrier = some byte) : v = ofByte (toByte v) := by
 cases v with
 | other _ => nomatch h
 | word carrier offset =>
  cases h
  exact congrArg (Value.word byte) (BitVec.setWidth_eq offset).symm

theorem shift_ofByte (b : BitVec 8) (a : Word) : Offsets.shift (ofByte b) a = ofByte (b + a.setWidth 8) :=
 rfl

theorem ofByte_eq_int {b : BitVec 8} {carrier : Carrier} {value : Word} (h : ofByte b = Value.int carrier value) :
  b = value.setWidth 8 := by
 obtain ⟨rfl, hb⟩ := Value.word.inj h
 exact eq_of_heq hb

/-- Addition of bytes, with `i` as the value of the `i`-th input. -/
def arithmetic : Meaning ByteLabel Unit where
 apply
  | input name, _ => ofByte (BitVec.ofNat 8 name)
  | number value, _ => ofByte value
  | sum, args => ofByte (toByte (args.getD 0 default) + toByte (args.getD 1 default))
 accepts _ carriers := ∀ carrier ∈ carriers, carrier = some byte
 unknown _ _ := .other ()

@[simp] theorem apply_sum (a b : BitVec 8) : arithmetic.apply sum [ofByte a, ofByte b] = ofByte (a + b) := by
  show ofByte (toByte (ofByte a) + toByte (ofByte b)) = _
  rw [toByte_ofByte, toByte_ofByte]

theorem eq_of_takes {args : List (Value Unit)} (h : arithmetic.Takes sum args) :
  ∃ a b : BitVec 8, args = [ofByte a, ofByte b] := by
 obtain ⟨v, w, rfl⟩ := length_eq_two.1 h.length
 refine ⟨toByte v, toByte w, ?_⟩
 rw [← eq_ofByte (h.accepts _ mem_cons_self), ← eq_ofByte (h.accepts _ (mem_cons_of_mem _ mem_cons_self))]

/-- The arithmetic satisfies the laws of its labels. -/
def bytes : Interpretation ByteLabel Unit where
 toMeaning := arithmetic
 carrier_apply := by
  intro l args _
  cases l <;> rfl
 carrier_unknown := nofun
 coefficient := by
  intro l before v after k offset htakes _ hk
  cases l with
  | input _ => nomatch hk
  | number _ => nomatch hk
  | sum =>
   cases hk
   obtain ⟨a, b, hargs⟩ := eq_of_takes htakes
   rcases before with _ | ⟨w, _ | ⟨_, before⟩⟩
   · cases hargs
     rw [List.nil_append, List.nil_append, shift_ofByte, apply_sum, apply_sum, shift_ofByte, one_mul, add_right_comm]
   · obtain ⟨rfl, hrest⟩ := List.cons.inj hargs
     cases hrest
     rw [List.singleton_append, List.singleton_append, shift_ofByte, apply_sum, apply_sum, shift_ofByte, one_mul,
      add_assoc]
   · exact absurd (congrArg List.length hargs) (by simp)
 bias := by
  intro l args c htakes hc hlinear hzero
  cases l with
  | input name => nomatch hlinear
  | number value => nomatch hlinear
  | sum =>
   cases hc
   obtain ⟨a, b, rfl⟩ := eq_of_takes htakes
   obtain ⟨carrier, ha⟩ := hzero _ List.mem_cons_self
   obtain ⟨carrier', hb⟩ := hzero _ (List.mem_cons_of_mem _ List.mem_cons_self)
   rw [apply_sum, ofByte_eq_int ha, ofByte_eq_int hb]
   rfl
 identity_left := by
  intro l c e carrier v htakes hc he
  cases l with
  | input _ => nomatch he
  | number _ => nomatch he
  | sum =>
   cases hc
   cases he
   obtain ⟨a, b, hargs⟩ := eq_of_takes htakes
   have ha := ofByte_eq_int (List.cons.inj hargs).1.symm
   simp_all
 identity_right := by
  intro l c e carrier v htakes hc he
  cases l with
  | input _ => nomatch he
  | number _ => nomatch he
  | sum =>
   cases hc
   cases he
   obtain ⟨a, b, hargs⟩ := eq_of_takes htakes
   have hb := ofByte_eq_int (List.cons.inj (List.cons.inj hargs).2).1.symm
   simp_all
 commutes := by
  intro l v w htakes hcommutes
  cases l with
  | input _ => nomatch hcommutes
  | number _ => nomatch hcommutes
  | sum =>
   obtain ⟨a, b, hargs⟩ := eq_of_takes htakes
   obtain ⟨rfl, hw⟩ := List.cons.inj hargs
   obtain ⟨rfl, -⟩ := List.cons.inj hw
   refine ⟨⟨rfl, rfl, fun carrier hin => ?_⟩, ?_⟩
   · exact htakes.accepts carrier (by simpa [or_comm] using hin)
   · rw [apply_sum, apply_sum, add_comm]
 constant := by
  intro l c value harity hc hval
  cases l with
  | input _ => nomatch hval
  | sum => nomatch harity
  | number number =>
   cases hc
   cases hval
   refine ⟨nofun, ?_, nofun⟩
   exact congrArg ofByte ((BitVec.setWidth_setWidth_of_le number (by decide)).trans (BitVec.setWidth_eq number)).symm

end ByteLabel

end Tir.Egraph
