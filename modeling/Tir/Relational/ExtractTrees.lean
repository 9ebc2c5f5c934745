import Tir.Basic.Acyclic
import Tir.Relational.ExtractCosts

/-!
# Extraction and derivation trees

A derivation tree spells an id from members, down to ids the client prices and members without
children; its cost is the saturating sum of its prices. `Problem.correct_iff` says when the fold
finds the least cost of every id and members that spell it: exactly when the members it picks at the
least costs are there and lead round no circle. `zeroCycle_not_correct` is a circle of free members.
-/

open List Option

namespace Tir.Relational

open Returns

/-! ## The cost of a tree -/

/-- The saturating sum of prices: unpriced where a price is, below that otherwise. -/
def total (prices : Multiset Cost) : Cost :=
 if UNPRICED ∈ prices then UNPRICED
 else ⟨min (prices.map Fin.val).sum (2 ^ 64 - 2), by omega⟩

theorem val_UNPRICED : UNPRICED.val = 2 ^ 64 - 1 := rfl

theorem val_sum (cost term : Cost) : (sum cost term).val = if cost.val + term.val < 2 ^ 64 then cost.val + term.val
  else if cost = UNPRICED ∨ term = UNPRICED then 2 ^ 64 - 1 else 2 ^ 64 - 2 := by
 rw [sum, checkedAdd]
 split
 · rename_i total htotal
   split at htotal
   · grind
   · nomatch htotal
 grind [val_UNPRICED]

theorem sum_UNPRICED_left (term : Cost) : sum UNPRICED term = UNPRICED := by
 apply Fin.ext
 rw [val_sum, val_UNPRICED]
 split
 · omega
 · rw [if_pos (.inl rfl)]

theorem sum_UNPRICED_right (cost : Cost) : sum cost UNPRICED = UNPRICED := by
 apply Fin.ext
 rw [val_sum, val_UNPRICED]
 split
 · omega
 · rw [if_pos (.inr rfl)]

/-- `sum` never falls below the sum, as far as that stays below the top. -/
theorem le_sum (cost term : Cost) : min (cost.val + term.val) (2 ^ 64 - 2) ≤ (sum cost term).val := by
 rw [val_sum]
 split
 · exact min_le_left _ _
 grind

theorem le_UNPRICED (cost : Cost) : cost ≤ UNPRICED := by
 show cost.val ≤ 2 ^ 64 - 1
 omega

theorem total_add_le {x y : Multiset Cost} {a b : Cost} (hx : total x ≤ a) (hy : total y ≤ b) :
  total (x + y) ≤ sum a b := by
 by_cases hux : UNPRICED ∈ x
 · rw [total, if_pos hux] at hx
   rw [le_antisymm (le_UNPRICED a) hx, sum_UNPRICED_left]
   exact le_UNPRICED _
 by_cases huy : UNPRICED ∈ y
 · rw [total, if_pos huy] at hy
   rw [le_antisymm (le_UNPRICED b) hy, sum_UNPRICED_right]
   exact le_UNPRICED _
 · have hu : UNPRICED ∉ x + y := by
    grind
   rw [total, if_neg hux] at hx
   rw [total, if_neg huy] at hy
   rw [total, if_neg hu]
   have hsum := le_sum a b
   have hx' : min (x.map Fin.val).sum (2 ^ 64 - 2) ≤ a.val := hx
   have hy' : min (y.map Fin.val).sum (2 ^ 64 - 2) ≤ b.val := hy
   show min ((x + y).map Fin.val).sum (2 ^ 64 - 2) ≤ (sum a b).val
   rw [Multiset.map_add, Multiset.sum_add]
   omega

theorem total_singleton_le (cost : Cost) : total {cost} ≤ cost := by
 rw [total]
 split
 · simp_all
 · show min ((Multiset.map Fin.val {cost}).sum) (2 ^ 64 - 2) ≤ cost.val
   simp_all

namespace Problem

variable (p : Problem)

/-! ## Derivation trees -/

mutual

/-- The derivation trees of an id out of the members `uses` allows, each with its prices. -/
inductive Derives (p : Problem) (uses : Nat → Member → Prop) : Nat → Multiset Cost → Prop where
 | outside {id : Nat} {cost : Cost} (hid : id ∉ p.ids) (hcost : p.outside id = some cost) :
   Derives p uses id {cost}
 | member {id : Nat} {m : Member} {prices : Multiset Cost} (huses : uses id m)
   (hkids : DerivesAll p uses m.children prices) : Derives p uses id ({m.price} + prices)

inductive DerivesAll (p : Problem) (uses : Nat → Member → Prop) : List Nat → Multiset Cost → Prop where
 | nil : DerivesAll p uses [] 0
 | cons {child : Nat} {children : List Nat} {x y : Multiset Cost} (hchild : Derives p uses child x)
   (hkids : DerivesAll p uses children y) : DerivesAll p uses (child :: children) (x + y)

end

mutual

theorem Derives.mono {p : Problem} {uses uses' : Nat → Member → Prop}
  (h : ∀ id m, uses id m → uses' id m) {id : Nat} {prices : Multiset Cost} :
  Derives p uses id prices → Derives p uses' id prices
 | .outside hid hcost => .outside hid hcost
 | .member huses hkids => .member (h _ _ huses) (DerivesAll.mono h hkids)

theorem DerivesAll.mono {p : Problem} {uses uses' : Nat → Member → Prop}
  (h : ∀ id m, uses id m → uses' id m) {children : List Nat} {prices : Multiset Cost} :
  DerivesAll p uses children prices → DerivesAll p uses' children prices
 | .nil => .nil
 | .cons hchild hkids => .cons (Derives.mono h hchild) (DerivesAll.mono h hkids)

end

/-- The members the client pushed. -/
def Offers (id : Nat) (m : Member) : Prop :=
 id ∈ p.ids ∧ m ∈ p.members id

def Chosen (chosen : Nat → Option (Nat × Cost)) (id : Nat) (m : Member) : Prop :=
 ∃ slot choice, p.ids[slot]? = some id ∧ chosen slot = some choice ∧
  p.pushed[choice.1]? = some (slot, m)

/-- The member chosen for one slot has the id of the next among its children. -/
def Follows (chosen : Nat → Option (Nat × Cost)) (slot next : Nat) : Prop :=
 ∃ choice m, chosen slot = some choice ∧ p.pushed[choice.1]? = some (slot, m) ∧
  ∃ child ∈ m.children, p.ids[next]? = some child

def treeCosts (id : Nat) : Set Cost :=
 { cost | ∃ prices, Derives p p.Offers id prices ∧ total prices = cost }

/-! ## What the fold is for -/

/-- The choices are right: an id has one exactly when a tree spells it, at the least cost of its
trees, and following the members chosen ends, in a tree of that cost. -/
structure Extracts (chosen : Nat → Option (Nat × Cost)) : Prop where
 derivable : ∀ slot id, p.ids[slot]? = some id →
  ((chosen slot).isSome ↔ ∃ prices, Derives p p.Offers id prices)
 least : ∀ slot id choice, p.ids[slot]? = some id → chosen slot = some choice →
  IsLeast (p.treeCosts id) choice.2
 acyclic : Acyclic (p.Follows chosen)
 spelled : ∀ slot id choice, p.ids[slot]? = some id → chosen slot = some choice →
  ∃ prices, Derives p (p.Chosen chosen) id prices ∧ total prices = choice.2

/-- The tags of the members chosen, with their costs. -/
def tags (chosen : Nat → Option (Nat × Cost)) : List (Option (Nat × Cost)) :=
 (List.range p.ids.length).map fun slot =>
  (chosen slot).bind fun choice => (p.pushed[choice.1]?).map fun entry => (entry.2.tag, choice.2)

/-- The fold ends, and its choices are right. -/
def Correct : Prop :=
 ∃ chosen, Returns p.choices chosen ∧ Returns p.fold (p.tags chosen) ∧ p.Extracts chosen

open Classical in
/-- The least cost of the trees of a slot's id. -/
noncomputable def leastCost (slot : Nat) : Option Cost :=
 if h : ∃ cost id, p.ids[slot]? = some id ∧ IsLeast (p.treeCosts id) cost then
  some h.choose
 else
  none

/-- At the least costs of the trees, every id that has a tree has a member that spells it at that
cost, and following the first such members leads round no circle. -/
def Settles : Prop :=
 ∀ table, p.table = some table →
  (∀ slot id, p.ids[slot]? = some id → (∃ prices, Derives p p.Offers id prices) →
   (table.chosen p.leastCost slot).isSome) ∧
   Acyclic (p.Follows (table.chosen p.leastCost))

/-! ## The table of a problem -/

section Sums

variable {p}

/-- The index names the slot of every id of the fold, and of no other. -/
def Indexes (p : Problem) (index : List (Option Nat)) : Prop :=
 index.length = p.bound ∧ ∀ id, id < p.bound → ∃ entry, index[id]? = some entry ∧
  ∀ slot, entry = some slot ↔ p.ids[slot]? = some id

theorem exists_index (p : Problem) : ∃ index, p.index = some index ∧ p.Indexes index := by
 -- the ids passed so far are indexed
 suffices H : ∀ (rest pre : List Nat) (index : List (Option Nat)), p.ids = pre ++ rest →
   index.length = p.bound → (∀ id, id < p.bound → ∃ entry, index[id]? = some entry ∧
    ∀ slot, entry = some slot ↔ pre[slot]? = some id) →
   ∃ index', (rest.zipIdx pre.length).foldlM (fun index entry =>
    if entry.1 < index.length then some (index.set entry.1 (some entry.2)) else none) index
     = some index' ∧ p.Indexes index' by
  obtain ⟨index, hidx, hspec⟩ := H p.ids [] (replicate p.bound none) rfl (by simp)
   fun id hid => ⟨none, by simp [hid], by simp⟩
  exact ⟨index, hidx, hspec⟩
 intro rest
 induction rest with
 | nil =>
  intro pre index hsplit hlen hspec
  rw [append_nil] at hsplit
  exact ⟨index, rfl, hlen, by rw [hsplit]; exact hspec⟩
 | cons id rest ih =>
  intro pre index hsplit hlen hspec
  have hid : id < p.bound := p.ids_lt id (by rw [hsplit]; simp)
  rw [zipIdx_cons, foldlM_cons, if_pos (by rw [hlen]; exact hid), bind_eq_bind,
   bind_some]
  have hstep := ih (pre ++ [id]) (index.set id (some pre.length)) (by simp [hsplit])
   (by rw [length_set]; exact hlen) ?_
  · grind
  · intro other hother
    have hnd : (pre ++ id :: rest).Nodup := hsplit ▸ p.nodup
    rcases eq_or_ne other id with rfl | hne
    · refine ⟨some pre.length, by rw [getElem?_set_self (by rw [hlen]; exact hid)], fun slot => ?_⟩
      rw [some.injEq]
      constructor
      · rintro rfl
        simp
      grind
    · obtain ⟨entry, hent, hslots⟩ := hspec other hother
      refine ⟨entry, by rw [getElem?_set_ne (Ne.symm hne)]; exact hent, fun slot => ?_⟩
      rw [hslots]
      rcases lt_or_ge slot pre.length with hlt | hge
      · rw [getElem?_append_left hlt]
      · rw [getElem?_append_right hge, getElem?_eq_none hge]
        constructor
        · nofun
        grind

theorem Indexes.child {index : List (Option Nat)} (h : p.Indexes index) {child : Nat} (hlt : child < p.bound) :
  (index[child]? = some none ∧ child ∉ p.ids) ∨
   ∃ slot, index[child]? = some (some slot) ∧ p.ids[slot]? = some child := by
 obtain ⟨entry, hent, hslots⟩ := h.2 child hlt
 cases entry with
 | none =>
  refine .inl ⟨hent, fun hmem => ?_⟩
  obtain ⟨slot, hslot⟩ := mem_iff_getElem?.1 hmem
  nomatch (hslots slot).2 hslot
 | some slot => exact .inr ⟨slot, hent, (hslots slot).1 rfl⟩

variable {index : List (Option Nat)}

/-- Pushing the children of a member: where each is outside or indexed, the push does not panic. -/
theorem pushChildren_isSome (hidx : p.Indexes index) (children : List Nat)
  (hlt : ∀ child ∈ children, child < p.bound) (e : Entry) :
  ∃ e', children.foldlM (p.pushChild index) e = some e' ∧ e'.tag = e.tag ∧ e'.slot = e.slot ∧
   (e'.costable = true → e.costable = true) := by
 induction children generalizing e with
 | nil => exact ⟨e, rfl, rfl, rfl, id⟩
 | cons child children ih =>
  have hrest := fun other hmem => hlt other (mem_cons_of_mem child hmem)
  rw [foldlM_cons]
  rcases hidx.child (hlt child (.head _)) with ⟨hchild, -⟩ | ⟨slot, hchild, -⟩
  · cases houtside : p.outside child with
    | none =>
     obtain ⟨e', he', htag, hslot, hcostable⟩ := ih hrest { e with costable := false }
     refine ⟨e', by rw [pushChild, hchild, houtside]; exact he', htag, hslot, fun h => ?_⟩
     exact absurd (hcostable h) Bool.false_ne_true
    | some cost =>
     obtain ⟨e', he', htag, hslot, hcostable⟩ := ih hrest { e with base := sum e.base cost }
     exact ⟨e', by rw [pushChild, hchild, houtside]; exact he', htag, hslot, hcostable⟩
  · obtain ⟨e', he', htag, hslot, hcostable⟩ := ih hrest { e with children := e.children ++ [slot] }
    exact ⟨e', by rw [pushChild, hchild]; exact he', htag, hslot, hcostable⟩

/-- The children of a member that is costed have trees, and the member's sum is no less than what
these trees cost with it. -/
theorem pushChildren_derives (uses : Nat → Member → Prop) (cost : Nat → Option Cost) (hidx : p.Indexes index)
  (hcost : ∀ slot id settled, p.ids[slot]? = some id → cost slot = some settled →
   ∃ prices, Derives p uses id prices ∧ total prices ≤ settled)
  (children : List Nat) (hlt : ∀ child ∈ children, child < p.bound) (e e' : Entry)
  (h : children.foldlM (p.pushChild index) e = some e') (hcostable : e'.costable = true) :
  ∃ slots, e'.children = e.children ++ slots ∧ (∀ slot ∈ slots, ∃ child ∈ children, p.ids[slot]? = some child) ∧
   ((∀ slot ∈ slots, (cost slot).isSome) → ∃ outer inner, DerivesAll p uses children (outer + inner) ∧
     (∀ x, total x ≤ e.base → total (x + outer) ≤ e'.base) ∧
     ∀ x base sum, total x ≤ base → slots.foldlM (Extract.Table.addChild cost) base = some sum →
      total (x + inner) ≤ sum) := by
 induction children generalizing e with
 | nil =>
  obtain rfl : e = e' := some.inj h
  refine ⟨[], by simp, by simp, fun _ => ⟨0, 0, DerivesAll.nil, fun x hx => ?_, ?_⟩⟩
  · rwa [add_zero]
  grind
 | cons child children ih =>
  have hrest := fun other hmem => hlt other (mem_cons_of_mem child hmem)
  have hweaken : ∀ slots : List Nat, (∀ slot ∈ slots, ∃ c ∈ children, p.ids[slot]? = some c) →
    ∀ slot ∈ slots, ∃ c ∈ child :: children, p.ids[slot]? = some c := by
   grind
  rw [foldlM_cons] at h
  rcases hidx.child (hlt child (.head _)) with ⟨hchild, hout⟩ | ⟨slot, hchild, hid⟩
  · cases houtside : p.outside child with
    | none =>
     -- nothing prices the child, so the member is not costable
     rw [pushChild, hchild, houtside] at h
     obtain ⟨e'', he'', -, -, hkeep⟩ :=
      pushChildren_isSome hidx children hrest { e with costable := false }
     grind
    | some price =>
     rw [pushChild, hchild, houtside] at h
     obtain ⟨slots, hkids, hslots, htrees⟩ := ih hrest { e with base := sum e.base price } h
     refine ⟨slots, hkids, hweaken slots hslots, fun hsome => ?_⟩
     obtain ⟨outer, inner, hderives, hbase, hsum⟩ := htrees hsome
     refine ⟨{price} + outer, inner, ?_, fun x hx => ?_, hsum⟩
     · rw [add_assoc]
       exact DerivesAll.cons (Derives.outside hout houtside) hderives
     · rw [← add_assoc]
       exact hbase _ (total_add_le hx (total_singleton_le price))
  · rw [pushChild, hchild] at h
    obtain ⟨slots, hkids, hslots, htrees⟩ := ih hrest { e with children := e.children ++ [slot] } h
    refine ⟨slot :: slots, by rw [hkids, append_assoc, singleton_append], ?_,
     fun hsome => ?_⟩
    · intro other hother
      rcases mem_cons.1 hother with rfl | hother
      · exact ⟨child, .head _, hid⟩
      · exact hweaken slots hslots other hother
    · obtain ⟨outer, inner, hderives, hbase, hsum⟩ :=
       htrees fun other hother => hsome other (mem_cons_of_mem slot hother)
      obtain ⟨settled, hsettled⟩ := isSome_iff_exists.1 (hsome slot (.head _))
      obtain ⟨prices, htree, hprices⟩ := hcost slot child settled hid hsettled
      refine ⟨outer, prices + inner, ?_, hbase, fun x base sum hx hto => ?_⟩
      · rw [add_left_comm]
        exact DerivesAll.cons htree hderives
      · rw [foldlM_cons, Extract.Table.addChild, hsettled, map_some] at hto
        rw [← add_assoc]
        exact hsum _ _ sum (total_add_le hx hprices) hto

theorem foldlM_addChild_isSome {cost : Nat → Option Cost} {slots : List Nat} {base sum : Cost}
  (h : slots.foldlM (Extract.Table.addChild cost) base = some sum) : ∀ slot ∈ slots, (cost slot).isSome := by
 induction slots generalizing base with
 | nil => nofun
 | cons slot slots ih =>
  rw [foldlM_cons] at h
  obtain ⟨next, hnext, h⟩ := bind_eq_some_iff.1 h
  obtain ⟨child, hchild, -⟩ := map_eq_some_iff.1 hnext
  intro other hother
  rcases mem_cons.1 hother with rfl | hother
  · rw [hchild]
    rfl
  · exact ih h other hother

theorem foldlM_addChild_congr {cost cost' : Nat → Option Cost} {slots : List Nat} (base : Cost)
  (h : ∀ slot ∈ slots, cost slot = cost' slot) :
  slots.foldlM (Extract.Table.addChild cost) base = slots.foldlM (Extract.Table.addChild cost') base := by
 induction slots generalizing base with
 | nil => rfl
 | cons slot slots ih =>
  rw [foldlM_cons, foldlM_cons, Extract.Table.addChild, Extract.Table.addChild, h slot mem_cons_self]
  exact bind_congr fun next => ih next fun other hother => h other (mem_cons_of_mem slot hother)

theorem costOf_eq_some {e : Entry} {cost : Nat → Option Cost} {settled : Cost} :
  Extract.Table.costOf e cost = some settled ↔
   e.costable = true ∧ e.children.foldlM (Extract.Table.addChild cost) e.base = some settled := by
 rw [Extract.Table.costOf]
 grind

theorem mem_pushed {position slot : Nat} {m : Member} (h : p.pushed[position]? = some (slot, m)) :
  ∃ id, p.ids[slot]? = some id ∧ m ∈ p.members id := by
 obtain ⟨entry, hent, hm⟩ := mem_flatMap.1 (mem_of_getElem? h)
 grind

/-- A member of the table, with what the client pushed. -/
structure Pushes (p : Problem) (index : List (Option Nat)) (position : Nat) (e : Entry)
  (id : Nat) (m : Member) : Prop where
 indexes : p.Indexes index
 pushed : p.pushed[position]? = some (e.slot, m)
 push : p.push index e.slot m = some e
 slot : p.ids[e.slot]? = some id
 member : m ∈ p.members id

namespace Pushes

variable {position id : Nat} {e : Entry} {m : Member}

variable (h : Pushes p index position e id m)

include h

theorem id_mem : id ∈ p.ids :=
 mem_of_getElem? h.slot

theorem offers : p.Offers id m :=
 ⟨h.id_mem, h.member⟩

theorem children_lt : ∀ child ∈ m.children, child < p.bound :=
 p.children_lt id h.id_mem m h.member

theorem tag : e.tag = m.tag := by
 obtain ⟨e', he', htag, -⟩ := pushChildren_isSome h.indexes m.children h.children_lt _
 obtain rfl : e' = e := some.inj (he'.symm.trans h.push)
 exact htag

/-- A costed member has trees of its children that cost no more with it. -/
theorem derives {uses : Nat → Member → Prop}
  {cost : Nat → Option Cost} (hcost : ∀ slot ∈ e.children, ∀ id settled, p.ids[slot]? = some id →
   cost slot = some settled → ∃ prices, Derives p uses id prices ∧ total prices ≤ settled)
  {settled : Cost} (hsettled : Extract.Table.costOf e cost = some settled) (huses : uses id m) :
  ∃ prices, Derives p uses id prices ∧ total prices ≤ settled := by
 obtain ⟨hcostable, hsum⟩ := costOf_eq_some.1 hsettled
 -- outside the children the costs do not matter
 let cost' : Nat → Option Cost := fun slot => if slot ∈ e.children then cost slot else none
 have hcost' : ∀ slot id settled, p.ids[slot]? = some id → cost' slot = some settled →
   ∃ prices, Derives p uses id prices ∧ total prices ≤ settled := by
  intro slot id settled hid hslot
  by_cases hmem : slot ∈ e.children
  · exact hcost slot hmem id settled hid (by rwa [show cost' slot = cost slot from if_pos hmem] at hslot)
  grind
 have hsum' : e.children.foldlM (Extract.Table.addChild cost') e.base = some settled := by
  grind [foldlM_addChild_congr]
 obtain ⟨slots, hslots, -, htrees⟩ := pushChildren_derives _ _ h.indexes hcost' m.children h.children_lt
  _ e h.push hcostable
 rw [nil_append] at hslots
 rw [hslots] at hsum'
 obtain ⟨outer, inner, hderives, hbase, hinner⟩ := htrees (foldlM_addChild_isSome hsum')
 refine ⟨{m.price} + (outer + inner), Derives.member huses hderives, ?_⟩
 grind [total_singleton_le]

theorem child (hcostable : e.costable = true) {slot : Nat}
  (hslot : slot ∈ e.children) : ∃ child ∈ m.children, p.ids[slot]? = some child := by
 obtain ⟨slots, hslots, hchild, -⟩ := pushChildren_derives p.Offers (fun _ => none)
  h.indexes nofun m.children h.children_lt _ e h.push hcostable
 grind

end Pushes

theorem mapM_forall₂ {α β : Type} {f : α → Option β} {xs : List α} {ys : List β}
  (h : xs.mapM f = some ys) : Forall₂ (fun x y => f x = some y) xs ys := by
 induction xs generalizing ys with
 | nil =>
  simp_all
 | cons x xs ih =>
  rw [mapM_cons] at h
  obtain ⟨y, hy, h⟩ := bind_eq_some_iff.1 h
  obtain ⟨ys', hys', h⟩ := bind_eq_some_iff.1 h
  obtain rfl : y :: ys' = ys := some.inj h
  exact Forall₂.cons hy (ih hys')

theorem push_slot (hidx : p.Indexes index) {slot : Nat} {m : Member} {e : Entry}
  (hlt : ∀ child ∈ m.children, child < p.bound) (h : p.push index slot m = some e) :
  e.slot = slot := by
 obtain ⟨e', he', -, hslot, -⟩ := pushChildren_isSome hidx m.children hlt _
 obtain rfl : e' = e := some.inj (he'.symm.trans h)
 exact hslot

/-- No push panics, and the table holds the members pushed. -/
theorem exists_table (p : Problem) : ∃ index t, p.table = some t ∧
  (∀ position e, t.entries[position]? = some e → ∃ id m, Pushes p index position e id m) := by
 obtain ⟨index, hidx, hspec⟩ := exists_index p
 have hlt : ∀ entry ∈ p.pushed, ∀ child ∈ entry.2.children, child < p.bound := by
  intro entry hent
  obtain ⟨position, hposn⟩ := mem_iff_getElem?.1 hent
  obtain ⟨id, hid, hm⟩ := @mem_pushed p _ entry.1 entry.2 hposn
  exact p.children_lt id (mem_of_getElem? hid) entry.2 hm
 have hall : ∀ pushed : List (Nat × Member),
   (∀ entry ∈ pushed, ∀ child ∈ entry.2.children, child < p.bound) →
   ∃ entries, (pushed.mapM fun entry => p.push index entry.1 entry.2) = some entries := by
  intro pushed
  induction pushed with
  | nil => exact fun _ => ⟨[], rfl⟩
  | cons entry pushed ih =>
   intro hpushed
   obtain ⟨entries, hentries⟩ := ih fun other hother => hpushed other (mem_cons_of_mem entry hother)
   obtain ⟨e, he, -⟩ := pushChildren_isSome hspec entry.2.children (hpushed entry (.head _))
    { tag := entry.2.tag, slot := entry.1, base := entry.2.price, children := [], costable := true }
   exact ⟨e :: entries, by rw [mapM_cons, push, he, hentries]; rfl⟩
 obtain ⟨entries, hentries⟩ := hall p.pushed hlt
 refine ⟨index, ⟨entries⟩, ?_, fun position e he => ?_⟩
 · rw [table, Problem.entries, hidx, bind_some, hentries, map_some]
 · have hforall := mapM_forall₂ hentries
   obtain ⟨hi, hget⟩ := List.getElem?_eq_some_iff.1 he
   have hi' : position < p.pushed.length := by
    rw [hforall.length_eq]
    exact hi
   have hent : p.pushed[position]? = some p.pushed[position] := getElem?_eq_getElem hi'
   have hpush := (forall₂_iff_get.1 hforall).2 position hi' hi
   rw [get_eq_getElem, get_eq_getElem, hget] at hpush
   obtain ⟨id, hid, hm⟩ := @mem_pushed p _ p.pushed[position].1 p.pushed[position].2 hent
   have hslot := push_slot hspec (hlt _ (mem_of_getElem? hent)) hpush
   refine ⟨id, p.pushed[position].2, hspec, ?_, ?_, ?_, hm⟩
   · rw [hslot]
     exact hent
   · rw [hslot]
     exact hpush
   · rw [hslot]
     exact hid

end Sums

/-! ## Least costs -/

section Least

variable {p}

theorem exists_isLeast {costs : Set Cost} (h : costs.Nonempty) : ∃ cost, IsLeast costs cost := by
 obtain ⟨cost, hmem, hmin⟩ := WellFounded.has_min (wellFounded_lt (α := Cost)) costs h
 exact ⟨cost, hmem, fun other hother => not_lt.1 (hmin other hother)⟩

theorem leastCost_eq_some {slot id : Nat} (hid : p.ids[slot]? = some id) {cost : Cost} :
  p.leastCost slot = some cost ↔ IsLeast (p.treeCosts id) cost := by
 rw [leastCost]
 constructor
 · intro h
   split at h
   · grind
   · cases h
 · intro h
   have hexists : ∃ cost id, p.ids[slot]? = some id ∧ IsLeast (p.treeCosts id) cost := ⟨cost, id, hid, h⟩
   obtain ⟨id', hid', hleast⟩ := hexists.choose_spec
   rw [← some.inj (hid.symm.trans hid')] at hleast
   rw [dif_pos hexists]
   exact congrArg some (hleast.unique h)

theorem leastCost_none {slot : Nat} (hid : p.ids[slot]? = none) : p.leastCost slot = none := by
 rw [leastCost, dif_neg]
 grind

theorem leastCost_isSome {slot id : Nat} (hid : p.ids[slot]? = some id) :
  (p.leastCost slot).isSome ↔ ∃ prices, Derives p p.Offers id prices := by
 rw [isSome_iff_exists]
 constructor
 · rintro ⟨cost, hcost⟩
   obtain ⟨prices, htree, -⟩ := ((leastCost_eq_some hid).1 hcost).1
   exact ⟨prices, htree⟩
 · rintro ⟨prices, htree⟩
   have hmem : total prices ∈ p.treeCosts id := ⟨prices, htree, rfl⟩
   obtain ⟨cost, hcost⟩ := exists_isLeast ⟨total prices, hmem⟩
   exact ⟨cost, (leastCost_eq_some hid).2 hcost⟩

end Least

/-! ## The fold and the least costs -/

section Fold

variable {p}

/-- Every cost is that of a tree, or more. -/
def Backed (p : Problem) (cost : Nat → Option Cost) : Prop :=
 ∀ slot settled, cost slot = some settled → ∃ id prices, p.ids[slot]? = some id ∧
  Derives p p.Offers id prices ∧ total prices ≤ settled

variable {index : List (Option Nat)} {t : Extract.Table}

theorem backed_invariant
  (hpushes : ∀ position e, t.entries[position]? = some e → ∃ id m, Pushes p index position e id m) :
  Extract.Table.Invariant t p.Backed where
 start := nofun
 improve := by
  intro cost e sum he hbacked hsum _ slot settled hslot
  obtain ⟨position, hposn⟩ := mem_iff_getElem?.1 he
  obtain ⟨id, m, hm⟩ := hpushes position e hposn
  rcases eq_or_ne slot e.slot with rfl | hne
  · rw [Function.update_self] at hslot
    obtain rfl : sum = settled := some.inj hslot
    obtain ⟨prices, htree, hprices⟩ := hm.derives (fun slot _ id settled hid hslot => by
     obtain ⟨id', prices, hid', htree⟩ := hbacked slot settled hslot
     grind) hsum hm.offers
    exact ⟨id, prices, hm.slot, htree, hprices⟩
  · rw [Function.update_of_ne hne] at hslot
    exact hbacked slot settled hslot

/-- What the fold computes: costs of trees that no member improves, and the choices at them. -/
theorem fold_returns (p : Problem) : ∃ index t cost, p.table = some t ∧
  (∀ position e, t.entries[position]? = some e → ∃ id m, Pushes p index position e id m) ∧
  p.Backed cost ∧ (∀ e ∈ t.entries, Extract.Table.Settled cost e) ∧
  Returns p.choices (t.chosen cost) ∧ Returns p.fold (p.tags (t.chosen cost)) := by
 obtain ⟨index, t, ht, hpushes⟩ := exists_table p
 have hslots : ∀ e ∈ t.entries, e.slot < p.ids.length := by
  intro e he
  obtain ⟨position, hposn⟩ := mem_iff_getElem?.1 he
  obtain ⟨id, m, hm⟩ := hpushes position e hposn
  exact (List.getElem?_eq_some_iff.1 hm.slot).1
 obtain ⟨cost, hreturns, hbacked, hsettled⟩ := Extract.Table.costs_returns hslots (backed_invariant hpushes)
 refine ⟨index, t, cost, ht, hpushes, hbacked, hsettled, ?_, ?_⟩
 · refine Returns.congr (fun fuel => ?_)
    (hreturns.bind (g := fun _ cost => some (t.chosen cost)) (pure _))
   rw [choices, ht, bind_some]
   exact map_eq_bind
 · refine congr (fun fuel => ?_)
    (hreturns.bind (g := fun _ cost => some ((List.range p.ids.length).map fun slot =>
     (t.chosen cost slot).bind fun choice =>
      (t.entries[choice.1]?).map fun member => (member.tag, choice.2))) ?_)
   · rw [fold, ht, bind_some]
     exact map_eq_bind
   · have htags : ((List.range p.ids.length).map fun slot => (t.chosen cost slot).bind fun choice =>
       (t.entries[choice.1]?).map fun member => (member.tag, choice.2)) = p.tags (t.chosen cost) := by
      refine map_congr_left fun slot _ => ?_
      cases hchosen : t.chosen cost slot with
      | none => rfl
      | some choice =>
       obtain ⟨-, e, he, -⟩ := Extract.Table.chosen_some hchosen
       obtain ⟨id, m, hm⟩ := hpushes choice.1 e he
       rw [bind_some, bind_some, he, hm.pushed, map_some, map_some,
        hm.tag]
     rw [htags]
     exact pure _

section

variable (hpushes : ∀ position e, t.entries[position]? = some e → ∃ id m, Pushes p index position e id m)

include hpushes

/-- A choice at the costs `cost` is a member pushed for the slot's id, and its children follow. -/
theorem chosen_pushes {cost : Nat → Option Cost} {slot : Nat} {choice : Nat × Cost}
  (h : t.chosen cost slot = some choice) : cost slot = some choice.2 ∧ ∃ e id m, e ∈ t.entries ∧ e.slot = slot ∧
   Pushes p index choice.1 e id m ∧ Extract.Table.costOf e cost = some choice.2 ∧
   ∀ child ∈ e.children, p.Follows (t.chosen cost) slot child := by
 obtain ⟨hcost, e, he, rfl, hsum, -⟩ := Extract.Table.chosen_some h
 obtain ⟨id, m, hm⟩ := hpushes choice.1 e he
 refine ⟨hcost, e, id, m, mem_of_getElem? he, rfl, hm, hsum, fun child hchild => ?_⟩
 exact ⟨choice, m, h, hm.pushed, hm.child (costOf_eq_some.1 hsum).1 hchild⟩

/-- Where the choices at the least costs are there and lead round no circle, the fold finds the
least costs. -/
theorem cost_eq_leastCost {cost : Nat → Option Cost} (hbacked : p.Backed cost)
  (hsettled : ∀ e ∈ t.entries, Extract.Table.Settled cost e)
  (hsome : ∀ slot id, p.ids[slot]? = some id → (∃ prices, Derives p p.Offers id prices) →
   (t.chosen p.leastCost slot).isSome) (hacyclic : Acyclic (p.Follows (t.chosen p.leastCost))) (slot : Nat) :
  cost slot = p.leastCost slot := by
 have hbound : ∀ slot next, p.Follows (t.chosen p.leastCost) slot next → next < p.ids.length := by
  rintro slot next ⟨-, -, -, -, child, -, hid⟩
  exact (List.getElem?_eq_some_iff.1 hid).1
 induction slot using hacyclic.induction hbound with
 | _ slot ih =>
  cases hleast : p.leastCost slot with
  | none =>
   cases hcost : cost slot with
   | none => rfl
   | some settled =>
    obtain ⟨id, prices, hid, htree, -⟩ := hbacked slot settled hcost
    grind [leastCost_isSome]
  | some least =>
   cases hid : p.ids[slot]? with
   | none =>
    grind [leastCost_none]
   | some id =>
    have htree := (leastCost_isSome hid).1 (by rw [hleast]; rfl)
    obtain ⟨choice, hchoice⟩ := isSome_iff_exists.1 (hsome slot id hid htree)
    obtain ⟨hchosen, e, -, -, he, rfl, -, hsum, hfollows⟩ := chosen_pushes hpushes hchoice
    obtain rfl : choice.2 = least := some.inj (hchosen.symm.trans hleast)
    -- the children of the choice have their least costs, so the member is looked at with them
    have hsum' : Extract.Table.costOf e cost = some choice.2 := by
     grind [costOf_eq_some, foldlM_addChild_congr]
    obtain ⟨best, hbest, hle⟩ := hsettled e he choice.2 hsum'
    obtain ⟨id', prices, hid', htree', hprices⟩ := hbacked e.slot best hbest
    obtain rfl : id = id' := some.inj (hid.symm.trans hid')
    have hlower : choice.2 ≤ total prices :=
     ((leastCost_eq_some hid).1 hleast).2 ⟨prices, htree', rfl⟩
    grind

end

/-- At the least costs, an acyclic choice spells a tree of that cost. -/
theorem spelled_of_acyclic
  (hpushes : ∀ position e, t.entries[position]? = some e → ∃ id m, Pushes p index position e id m)
  (hsome : ∀ slot id, p.ids[slot]? = some id → (∃ prices, Derives p p.Offers id prices) →
   (t.chosen p.leastCost slot).isSome)
  (hacyclic : Acyclic (p.Follows (t.chosen p.leastCost))) (slot id : Nat) (choice : Nat × Cost)
  (hid : p.ids[slot]? = some id) (hchoice : t.chosen p.leastCost slot = some choice) :
  ∃ prices, Derives p (p.Chosen (t.chosen p.leastCost)) id prices ∧ total prices = choice.2 := by
 have hoffers : ∀ id m, p.Chosen (t.chosen p.leastCost) id m → p.Offers id m := by
  rintro id m ⟨slot, choice, hid, -, hm⟩
  obtain ⟨id', hid', hmem⟩ := mem_pushed hm
  obtain rfl : id = id' := some.inj (hid.symm.trans hid')
  exact ⟨mem_of_getElem? hid, hmem⟩
 have hbound : ∀ slot next, p.Follows (t.chosen p.leastCost) slot next → next < p.ids.length := by
  rintro slot next ⟨-, -, -, -, child, -, hid⟩
  exact (List.getElem?_eq_some_iff.1 hid).1
 induction slot using hacyclic.induction hbound generalizing id choice with
 | _ slot ih =>
  obtain ⟨hleast, e, id', m, -, rfl, hm, hsum, hfollows⟩ := chosen_pushes hpushes hchoice
  obtain rfl : id = id' := some.inj (hid.symm.trans hm.slot)
  have hkids : ∀ child ∈ e.children, ∀ id settled, p.ids[child]? = some id →
    p.leastCost child = some settled → ∃ prices,
     Derives p (p.Chosen (t.chosen p.leastCost)) id prices ∧ total prices ≤ settled := by
   intro child hchild id settled hid hsettled
   have hderivable := (leastCost_isSome hid).1 (by rw [hsettled]; rfl)
   obtain ⟨next, hnext⟩ := isSome_iff_exists.1 (hsome child id hid hderivable)
   obtain ⟨prices, htree, hprices⟩ := ih child (hfollows child hchild) id next hid hnext
   have hcost := (Extract.Table.chosen_some hnext).1
   grind
  obtain ⟨prices, htree, hprices⟩ := hm.derives hkids hsum ⟨e.slot, choice, hid, hchoice, hm.pushed⟩
  refine ⟨prices, htree, le_antisymm hprices ?_⟩
  exact ((leastCost_eq_some hid).1 hleast).2 ⟨prices, htree.mono hoffers, rfl⟩

end Fold

variable {p} in
/-- The fold finds least costs and finite spellings exactly when, at the least costs of the trees,
the members it picks are there and lead round no circle. -/
theorem correct_iff : p.Correct ↔ p.Settles := by
 obtain ⟨index, t, cost, ht, hpushes, hbacked, hsettled, hchoices, hfold⟩ := fold_returns p
 constructor
 · rintro ⟨chosen, hreturns, -, hextracts⟩ table htable
   obtain rfl : t = table := some.inj (ht.symm.trans htable)
   obtain rfl : chosen = t.chosen cost := hreturns.unique hchoices
   have hcost : cost = p.leastCost := by
    funext slot
    cases hid : p.ids[slot]? with
    | none =>
     rw [leastCost_none hid]
     cases hslot : cost slot with
     | none => rfl
     | some settled =>
      obtain ⟨id, -, hid', -⟩ := hbacked slot settled hslot
      exact absurd (hid.symm.trans hid') nofun
    | some id =>
     cases hslot : cost slot with
     | none =>
      cases hleast : p.leastCost slot with
      | none => rfl
      | some least =>
       have htree := (leastCost_isSome hid).1 (by rw [hleast]; rfl)
       have hsome := (hextracts.derivable slot id hid).2 htree
       obtain ⟨choice, hchoice⟩ := isSome_iff_exists.1 hsome
       exact absurd (hslot.symm.trans (Extract.Table.chosen_some hchoice).1) nofun
     | some settled =>
      obtain ⟨id', prices, hid', htree, -⟩ := hbacked slot settled hslot
      obtain rfl : id = id' := some.inj (hid.symm.trans hid')
      have hsome := (hextracts.derivable slot id hid).2 ⟨prices, htree⟩
      obtain ⟨choice, hchoice⟩ := isSome_iff_exists.1 hsome
      rw [← hslot, (Extract.Table.chosen_some hchoice).1]
      exact ((leastCost_eq_some hid).2 (hextracts.least slot id choice hid hchoice)).symm
   rw [← hcost]
   exact ⟨fun slot id hid => (hextracts.derivable slot id hid).2, hextracts.acyclic⟩
 · intro hsettles
   obtain ⟨hsome, hacyclic⟩ := hsettles t ht
   have hcost : cost = p.leastCost :=
    funext fun slot => cost_eq_leastCost hpushes hbacked hsettled hsome hacyclic slot
   rw [hcost] at hchoices hfold
   refine ⟨t.chosen p.leastCost, hchoices, hfold, fun slot id hid => ⟨fun h => ?_, hsome slot id hid⟩,
    fun slot id choice hid hchoice => ?_, hacyclic, spelled_of_acyclic hpushes hsome hacyclic⟩
   · obtain ⟨choice, hchoice⟩ := isSome_iff_exists.1 h
     exact (leastCost_isSome hid).1 (by rw [(Extract.Table.chosen_some hchoice).1]; rfl)
   · exact (leastCost_eq_some hid).1 (Extract.Table.chosen_some hchoice).1

/-! ## A circle of free members -/

/-- Two ids that spell each other for nothing; a member of the first costs 5 without the other. -/
def zeroCycle : Problem where
 bound := 2
 ids := [0, 1]
 outside _ := none
 members
  | 0 => [{ tag := 0, price := 0, children := [1] }, { tag := 1, price := 5, children := [] }]
  | _ => [{ tag := 2, price := 0, children := [0] }]
 nodup := by decide
 ids_lt := by decide
 children_lt := by decide

theorem zeroCycle_choices (fuel : Nat) : ∃ chosen, zeroCycle.choices (fuel + 4) = some chosen ∧
  chosen 0 = some (0, 5) ∧ chosen 1 = some (2, 5) :=
 ⟨_, rfl, rfl, rfl⟩

/-- Each of the two ids is spelled by the other: both members come first at the cost 5. -/
theorem zeroCycle_not_correct : ¬ zeroCycle.Correct := by
 rintro ⟨chosen, ⟨k, hk⟩, -, hextracts⟩
 obtain ⟨chosen', hchosen', hzero, hone⟩ := zeroCycle_choices k
 obtain rfl : chosen = chosen' := some.inj ((hk (k + 4) (Nat.le_add_right k 4)).symm.trans hchosen')
 have hforth : zeroCycle.Follows chosen 0 1 :=
  ⟨(0, 5), { tag := 0, price := 0, children := [1] }, hzero, rfl, 1, .head _, rfl⟩
 have hback : zeroCycle.Follows chosen 1 0 :=
  ⟨(2, 5), { tag := 2, price := 0, children := [0] }, hone, rfl, 0, .head _, rfl⟩
 exact hextracts.acyclic 0 ((Relation.TransGen.single hforth).tail hback)

end Problem

end Tir.Relational
