import Mathlib
import Tir.Restructure.MemoryOrder

/-!
# What the chains keep

A state published on a chain is followed by what the chain is entered on next (`Reaches`): a change
by the state the chain was last written with, or by the shared state that stands for it, a read
by that or by a read still forked off. `Extends` says that threading keeps this. Each operation
on the chains has one lemma that says what it returns and that it extends the chains:
`Chains.state_ok`, `Chains.closeFork_ok`, `Chains.settle_ok`.
-/

open List Option Function Nat Relation

namespace Tir.Restructure

open Chains

theorem bind_ok {ε α β : Type} {x : Except ε α} {f : α → Except ε β} {b : β} :
  (x >>= f) = .ok b ↔ ∃ a, x = .ok a ∧ f a = .ok b := by
 cases x with
 | error e => exact ⟨nofun, fun ⟨a, h, _⟩ => nomatch h⟩
 | ok a => exact ⟨fun h => ⟨a, rfl, h⟩, fun ⟨a', h, hf⟩ => by cases h; exact hf⟩

/-! ## The order of the states -/

theorem Depends.mono {nodes nodes' : List Node}
  (h : ∀ v w, Follows nodes v w → Follows nodes' v w) {v w : Nat} (hd : Depends nodes v w) : Depends nodes' v w :=
 ReflTransGen.mono h _ _ hd

theorem Depends.node {nodes : List Node} (node : Node) (hn : node ∈ nodes) {v w : Nat}
  (hv : v ∈ node.observes) (hw : w ∈ node.publishes) : Depends nodes v w :=
 ReflTransGen.single ⟨node, hn, hv, hw⟩

theorem Follows.subset {nodes nodes' : List Node} (h : nodes ⊆ nodes') {v w : Nat}
  (hf : Follows nodes v w) : Follows nodes' v w := by
 obtain ⟨node, hn, hvw⟩ := hf
 exact ⟨node, h hn, hvw⟩

namespace Chains

/-- The joins and splits placed so far. -/
def nodes (s : Chains) : List Node :=
 s.inserted.map Prod.fst

/-- The state a change of the chain has to follow, but for reads forked off it. -/
def front (s : Chains) (chain : Nat) (held : ChainState) : Nat :=
 match s.shared with
 | some shared => if chain ∈ shared.chains then shared.published else held.written
 | none => held.written

/-- No shared state stands for the chain. -/
def Free (s : Chains) (chain : Nat) : Prop :=
 ∀ shared, s.shared = some shared → chain ∉ shared.chains

theorem Free.front {s : Chains} {chain : Nat} (h : s.Free chain) (held : ChainState) :
  s.front chain held = held.written := by
 rw [Chains.front]
 cases hs : s.shared with
 | none => rfl
 | some shared => simp only [if_neg (h shared hs)]

theorem free_of_none {s : Chains} (h : s.shared = none) (chain : Nat) : s.Free chain := by
 intro shared hs
 exact nomatch h.symm.trans hs

theorem Free.of_shared {s s' : Chains} {chain : Nat} (h : s.Free chain)
  (hs : s'.shared = none ∨ s'.shared = s.shared) : s'.Free chain := by
 intro shared hs'
 rcases hs with hs | hs
 · exact nomatch hs.symm.trans hs'
 · exact h shared (hs.symm.trans hs')

end Chains

/-- What a published state is followed by on a chain; a read may still be forked off. -/
def Reaches (nodes : List Node) (s : Chains) (change : Bool) (published chain : Nat) : Prop :=
 ∃ held, s.states chain = some held ∧
  (Depends (nodes ++ s.nodes) published (s.front chain held) ∨
   change = false ∧ ∃ read ∈ held.reads, Depends (nodes ++ s.nodes) published read)

/-- Every state has the resource of its chain, and what a shared state stands for has no reads
forked off. -/
structure Typed (plan : Plan) (s : Chains) : Prop where
 known : ∀ chain held, s.states chain = some held →
  ∀ v ∈ held.written :: held.reads, v < s.next ∧ s.types v = some (plan.resource chain)
 single : ∀ chain held, s.states chain = some held → plan.resource chain ≠ .memory →
  held.reads = []
 shared : ∀ shared, s.shared = some shared →
  shared.published < s.next ∧ s.types shared.published = some .memory ∧
  (shared.chains.Nodup ∧ shared.chains.length ≠ 1) ∧
  ∀ chain ∈ shared.chains, plan.resource chain = .memory ∧
   ∃ held, s.states chain = some held ∧ held.reads = []
 carried : ∀ chain, chain ∈ s.keys ↔ (s.states chain).isSome

/-- Reads forked off a chain follow what it was last written with. -/
def Forked (nodes : List Node) (s : Chains) : Prop :=
 ∀ chain held, s.states chain = some held →
  ∀ read ∈ held.reads, Depends (nodes ++ s.nodes) held.written read

/-- Threading from one point to a later one. -/
structure Extends (plan : Plan) (nodes nodes' : List Node) (s s' : Chains) : Prop where
 next : s.next ≤ s'.next
 types : ∀ v < s.next, s'.types v = s.types v
 keys : s'.keys = s.keys
 follows : ∀ v w, Follows (nodes ++ s.nodes) v w → Follows (nodes' ++ s'.nodes) v w
 typed : Typed plan s'
 forked : Forked nodes' s'
 reaches : ∀ change published chain, Reaches nodes s change published chain →
  Reaches nodes' s' change published chain

theorem Extends.refl {plan : Plan} {nodes : List Node} {s : Chains} (ht : Typed plan s)
  (hf : Forked nodes s) : Extends plan nodes nodes s s :=
 ⟨Nat.le_refl _, fun _ _ => rfl, rfl, fun _ _ h => h, ht, hf, fun _ _ _ h => h⟩

theorem Extends.trans {plan : Plan} {nodes nodes' nodes'' : List Node} {s s' s'' : Chains}
  (h : Extends plan nodes nodes' s s') (h' : Extends plan nodes' nodes'' s' s'') :
  Extends plan nodes nodes'' s s'' := by
 refine ⟨Nat.le_trans h.next h'.next, fun v hv => ?_, h'.keys.trans h.keys,
  fun v w hvw => h'.follows v w (h.follows v w hvw), h'.typed, h'.forked,
  fun change published chain hr => h'.reaches _ _ _ (h.reaches _ _ _ hr)⟩
 rw [h'.types v (Nat.lt_of_lt_of_le hv h.next), h.types v hv]

theorem Extends.depends {plan : Plan} {nodes nodes' : List Node} {s s' : Chains}
  (h : Extends plan nodes nodes' s s') {v w : Nat} (hd : Depends (nodes ++ s.nodes) v w) :
  Depends (nodes' ++ s'.nodes) v w :=
 hd.mono h.follows

/-! ## Writing one chain -/

namespace Chains

variable {plan : Plan} {nodes nodes' : List Node} {s s' : Chains} {chain : Nat}

/-- A chain that no shared state stands for takes a new state: it follows what the chain was
written with, and every read is still forked off or followed by it. -/
theorem extends_put {held : ChainState} (held' : ChainState) (ht : Typed plan s) (hf : Forked nodes s)
  (hheld : s.states chain = some held) (hfree : s.Free chain)
  (hnext : s.next ≤ s'.next) (htypes : ∀ v < s.next, s'.types v = s.types v)
  (hkeys : s'.keys = s.keys) (hshared : s'.shared = s.shared) (hstates : s'.states = update s.states chain (some held'))
  (hfollows : ∀ v w, Follows (nodes ++ s.nodes) v w → Follows (nodes' ++ s'.nodes) v w)
  (hknown : ∀ v ∈ held'.written :: held'.reads, v < s'.next ∧ s'.types v = some (plan.resource chain))
  (hsingle : plan.resource chain ≠ .memory → held'.reads = [])
  (hwritten : Depends (nodes' ++ s'.nodes) held.written held'.written)
  (hreads : ∀ read ∈ held.reads, read ∈ held'.reads ∨ Depends (nodes' ++ s'.nodes) read held'.written)
  (hforks : ∀ read ∈ held'.reads, Depends (nodes' ++ s'.nodes) held'.written read) :
  Extends plan nodes nodes' s s' := by
 have hself : s'.states chain = some held' := by rw [hstates, update_self]
 have hother : ∀ other, other ≠ chain → s'.states other = s.states other := fun other ho => by
  rw [hstates, update_of_ne ho]
 have hfront : ∀ other st, s'.front other st = s.front other st := fun other st => by
  simp [front, hshared]
 refine ⟨hnext, htypes, hkeys, hfollows, ⟨?_, ?_, ?_, ?_⟩, ?_, ?_⟩
 · intro other st hst v hv
   by_cases ho : other = chain
   · grind
   · rw [hother other ho] at hst
     obtain ⟨hlt, hty⟩ := ht.known other st hst v hv
     grind
 · intro other st hst hres
   by_cases ho : other = chain
   · grind
   · rw [hother other ho] at hst
     exact ht.single other st hst hres
 · intro shared hs
   rw [hshared] at hs
   obtain ⟨hlt, hty, hnd, hall⟩ := ht.shared shared hs
   refine ⟨Nat.lt_of_lt_of_le hlt hnext, (htypes _ hlt).trans hty, hnd, fun other ho => ?_⟩
   have hne : other ≠ chain := fun heq => hfree shared hs (heq ▸ ho)
   grind
 · intro other
   rw [hkeys, ht.carried]
   by_cases ho : other = chain
   · grind
   · rw [hother other ho]
 · intro other st hst read hread
   by_cases ho : other = chain
   · grind
   · rw [hother other ho] at hst
     exact (hf other st hst read hread).mono hfollows
 · rintro change published other ⟨st, hst, hreach⟩
   by_cases ho : other = chain
   · subst ho
     obtain rfl : held = st := some.inj (hheld.symm.trans hst)
     refine ⟨held', hself, ?_⟩
     rw [hfront, hfree.front]
     rw [hfree.front] at hreach
     rcases hreach with hd | ⟨hc, read, hread, hd⟩
     · exact .inl ((hd.mono hfollows).trans hwritten)
     · rcases hreads read hread with hmem | hdep
       · exact .inr ⟨hc, read, hmem, hd.mono hfollows⟩
       · exact .inl ((hd.mono hfollows).trans hdep)
   · refine ⟨st, by rw [hother other ho]; exact hst, ?_⟩
     rw [hfront]
     rcases hreach with hd | ⟨hc, read, hread, hd⟩
     · exact .inl (hd.mono hfollows)
     · exact .inr ⟨hc, read, hread, hd.mono hfollows⟩

@[simp]
theorem put_self (s : Chains) (chain : Nat) (held : ChainState) : (s.put chain held).states chain = some held :=
 update_self ..

theorem put_of_ne (s : Chains) {chain other : Nat} (held : ChainState) (h : other ≠ chain) :
  (s.put chain held).states other = s.states other :=
 update_of_ne h ..

theorem get_ok {held : ChainState} : s.get chain = .ok held ↔ s.states chain = some held := by
 rw [get]
 cases s.states chain with
 | none => simp [unsupported]
 | some state => simp

/-! ## Naming the shared state -/

/-- Each chain of a list takes its state. -/
theorem foldlM_put {parts : List (Nat × Nat)} (hnd : (parts.map Prod.fst).Nodup)
  (h : parts.foldlM (fun s part => do
   let state ← s.get part.1
   return s.put part.1 { state with written := part.2 }) s = .ok s') :
  s' = { s with states := fun other => match parts.lookup other with
   | some written => (s.states other).map fun held => { held with written }
   | none => s.states other } := by
 induction parts generalizing s with
 | nil =>
  obtain rfl : s = s' := Except.ok.inj h
  rfl
 | cons part parts ih =>
  obtain ⟨hnot, hnd⟩ := nodup_cons.1 hnd
  obtain ⟨s1, h1, h⟩ := bind_ok.1 h
  obtain ⟨held, hget, h1⟩ := bind_ok.1 h1
  cases h1
  rw [get_ok] at hget
  rw [ih hnd h]
  simp only [put]
  congr 1
  funext other
  rw [lookup_cons]
  by_cases ho : other = part.1
  · grind
  · rw [beq_false_of_ne ho, update_of_ne ho]

/-- No read is forked off, and no state is shared that was not. -/
structure Drains (s s' : Chains) : Prop where
 reads : ∀ chain held, s.states chain = some held →
  ∃ held', s'.states chain = some held' ∧ held'.reads ⊆ held.reads
 shared : s'.shared = none ∨ s'.shared = s.shared

theorem Drains.refl (s : Chains) : Drains s s :=
 ⟨fun _ held h => ⟨held, h, Subset.refl _⟩, .inr rfl⟩

theorem Drains.trans {s'' : Chains} (h : Drains s s') (h' : Drains s' s'') : Drains s s'' := by
 refine ⟨fun chain held hheld => ?_, ?_⟩
 · obtain ⟨held', hheld', hr⟩ := h.reads chain held hheld
   obtain ⟨held'', hheld'', hr'⟩ := h'.reads chain held' hheld'
   grind
 · rcases h'.shared with hs | hs
   · exact .inl hs
   · exact h.shared.imp hs.trans hs.trans

/-- The chains after the shared state is split: each of its chains has a part of its own. -/
theorem nameShared_eq {shared : Shared} (hs : s.shared = some shared) (hnd : shared.chains.Nodup)
  (h : s.nameShared = .ok s') : s' = { s with
   next := s.next + shared.chains.length
   types := fun value =>
    if s.next ≤ value ∧ value < s.next + shared.chains.length then s.types shared.published
    else s.types value
   shared := none
   inserted := s.inserted ++ [(.split shared.published
    (List.range' s.next shared.chains.length), shared.after, true)]
   states := fun other =>
    match (shared.chains.zip (List.range' s.next shared.chains.length)).lookup other with
    | some written => (s.states other).map fun held => { held with written }
    | none => s.states other } := by
 rw [nameShared, hs] at h
 have hfst : ((shared.chains.zip (List.range' s.next shared.chains.length)).map Prod.fst) =
   shared.chains := map_fst_zip (by simp)
 exact foldlM_put (hfst.symm ▸ hnd) h

/-- A part of the split is for a chain of the shared state. -/
theorem lookup_zip_range {chains : List Nat} {start v : Nat}
  (h : (chains.zip (List.range' start chains.length)).lookup chain = some v) :
  chain ∈ chains ∧ v ∈ List.range' start chains.length := by
 obtain ⟨l1, l2, heq, -⟩ := lookup_eq_some_iff.1 h
 refine of_mem_zip (a := chain) (b := v) ?_
 rw [heq]
 simp

theorem lookup_zip_range_none {chains : List Nat} {start : Nat}
  (h : (chains.zip (List.range' start chains.length)).lookup chain = none) : chain ∉ chains := by
 have hfst : ((chains.zip (List.range' start chains.length)).map Prod.fst) = chains :=
  map_fst_zip (by simp)
 grind

section

variable (ht : Typed plan s)

include ht

/-- **Naming the shared state** splits it: every chain it stood for has a state of its own. -/
theorem nameShared_ok (hf : Forked nodes s) (h : s.nameShared = .ok s') :
  Extends plan nodes nodes s s' ∧ s'.shared = none ∧ Drains s s' := by
 cases hs : s.shared with
 | none =>
  rw [nameShared, hs] at h
  grind [Extends.refl, Drains.refl]
 | some shared =>
  obtain ⟨hlt, hty, ⟨hnd, -⟩, hall⟩ := ht.shared shared hs
  have hs' := nameShared_eq hs hnd h
  have hnodes : s'.nodes = s.nodes ++
    [.split shared.published (List.range' s.next shared.chains.length)] := by
   rw [hs']
   simp [Chains.nodes]
  have hfollows : ∀ v w, Follows (nodes ++ s.nodes) v w → Follows (nodes ++ s'.nodes) v w := by
   intro v w
   refine Follows.subset ?_
   grind
  have hsplit : ∀ v ∈ List.range' s.next shared.chains.length,
    Depends (nodes ++ s'.nodes) shared.published v := by
   intro v hv
   refine Depends.node (.split shared.published _) ?_ (mem_singleton.2 rfl) hv
   rw [hnodes]
   simp
  have htypes : ∀ v < s.next, s'.types v = s.types v := by
   rw [hs']
   grind
  have hshared' : s'.shared = none := by rw [hs']
  have hstate : ∀ chain, s'.states chain =
    match (shared.chains.zip (List.range' s.next shared.chains.length)).lookup chain with
    | some written => (s.states chain).map fun held => { held with written }
    | none => s.states chain := by
   intro chain
   rw [hs']
  have hnew : ∀ v ∈ List.range' s.next shared.chains.length,
    v < s'.next ∧ s'.types v = some .memory := by
   simp_all
  have hfrontNone : ∀ chain held, s'.front chain held = held.written := by
   intro chain held
   rw [front, hshared']
  refine ⟨⟨by rw [hs']; simp, htypes, by rw [hs'], hfollows, ⟨?_, ?_, ?_, ?_⟩, ?_, ?_⟩,
   hshared', fun chain held hheld => ?_, .inl hshared'⟩
  · intro chain held' hheld' v hv
    rw [hstate] at hheld'
    cases hl : (shared.chains.zip (List.range' s.next shared.chains.length)).lookup chain with
    | none =>
     rw [hl] at hheld'
     obtain ⟨hlt, hty⟩ := ht.known chain held' hheld' v hv
     exact ⟨Nat.lt_of_lt_of_le hlt (by rw [hs']; simp), (htypes v hlt).trans hty⟩
    | some w =>
     obtain ⟨hmem, hw⟩ := lookup_zip_range hl
     grind
  · intro chain held' hheld' hres
    rw [hstate] at hheld'
    cases hl : (shared.chains.zip (List.range' s.next shared.chains.length)).lookup chain with
    | none =>
     rw [hl] at hheld'
     exact ht.single chain held' hheld' hres
    | some w => exact absurd (hall chain (lookup_zip_range hl).1).1 hres
  · grind
  · intro chain
    have hk : s'.keys = s.keys := by rw [hs']
    rw [hk, ht.carried, hstate]
    grind
  · intro chain held' hheld' read hread
    rw [hstate] at hheld'
    cases hl : (shared.chains.zip (List.range' s.next shared.chains.length)).lookup chain with
    | none =>
     rw [hl] at hheld'
     exact (hf chain held' hheld' read hread).mono hfollows
    | some w =>
     obtain ⟨-, held0, hheld0, hnil⟩ := hall chain (lookup_zip_range hl).1
     grind
  · rintro change published chain ⟨held, hheld, hreach⟩
    cases hl : (shared.chains.zip (List.range' s.next shared.chains.length)).lookup chain with
    | none =>
     refine ⟨held, by rw [hstate, hl]; exact hheld, ?_⟩
     have hfront : s.front chain held = held.written := by
      simp [front, hs, if_neg (lookup_zip_range_none hl)]
     rw [hfront] at hreach
     rw [hfrontNone]
     rcases hreach with hd | ⟨hc, read, hread, hd⟩
     · exact .inl (hd.mono hfollows)
     · exact .inr ⟨hc, read, hread, hd.mono hfollows⟩
    | some w =>
     obtain ⟨hmem, hw⟩ := lookup_zip_range hl
     obtain ⟨-, held0, hheld0, hnil⟩ := hall chain hmem
     cases hheld.symm.trans hheld0
     refine ⟨{ held with written := w }, by rw [hstate, hl, hheld]; rfl, .inl ?_⟩
     have hfront : s.front chain held = shared.published := by
      simp [front, hs, if_pos hmem]
     rw [hfront, hnil] at hreach
     rw [hfrontNone]
     rcases hreach with hd | ⟨-, read, hread, -⟩
     · exact (hd.mono hfollows).trans (hsplit w hw)
     · nomatch hread
  grind

/-- **The state of a chain**: no shared state stands for it any more. -/
theorem state_ok {held : ChainState} (hf : Forked nodes s) (h : s.state chain = .ok (held, s')) :
  Extends plan nodes nodes s s' ∧ s'.states chain = some held ∧ s'.Free chain ∧
   (s'.shared = none ∨ plan.resource chain ≠ .memory) ∧ Drains s s' := by
 obtain ⟨held0, hget0, h⟩ := bind_ok.1 h
 obtain ⟨s1, h1, h⟩ := bind_ok.1 h
 obtain ⟨held1, hget1, h⟩ := bind_ok.1 h
 obtain ⟨rfl, rfl⟩ : held1 = held ∧ s1 = s' := by simpa [pure, Except.pure] using h
 rw [get_ok] at hget0 hget1
 rw [nameFor] at h1
 by_cases hname : s.namesShared held0.written
 · grind [nameShared_ok, free_of_none]
 · rw [if_neg hname] at h1
   cases h1
   have hres : ∀ shared, s.shared = some shared → plan.resource chain ≠ .memory := by
    intro shared hs hmem
    have hty := (ht.known chain held0 hget0 _ (.head _)).2
    simp [namesShared, hs, hty, (ht.shared shared hs).2.1, hmem] at hname
   refine ⟨Extends.refl ht hf, hget1, fun shared hs hc => ?_, ?_, Drains.refl s⟩
   · exact hres shared hs ((ht.shared shared hs).2.2.2 chain hc).1
   · cases hs : s.shared with
     | none => exact .inl rfl
     | some shared => exact .inr (hres shared hs)

/-- Naming the shared state leaves a chain it does not stand for. -/
theorem nameShared_keeps (h : s.nameShared = .ok s') (hfree : s.Free chain) :
  s'.states chain = s.states chain := by
 cases hs : s.shared with
 | none =>
  rw [nameShared, hs] at h
  grind
 | some shared =>
  rw [nameShared_eq hs (ht.shared shared hs).2.2.1.1 h]
  cases hl : (shared.chains.zip (List.range' s.next shared.chains.length)).lookup chain with
  | none => simp only [hl]
  | some w => exact absurd (lookup_zip_range hl).1 (hfree shared hs)

/-- Looking at a chain leaves a chain that no shared state stands for. -/
theorem state_keeps {other : Nat} {held : ChainState} (hf : Forked nodes s)
  (h : s.state other = .ok (held, s')) (hfree : s.Free chain) :
  s'.states chain = s.states chain ∧ s'.Free chain := by
 obtain ⟨-, -, -, -, hdrains⟩ := state_ok ht hf h
 refine ⟨?_, hfree.of_shared hdrains.shared⟩
 obtain ⟨held0, -, h⟩ := bind_ok.1 h
 obtain ⟨s1, h1, h⟩ := bind_ok.1 h
 obtain ⟨held1, -, h⟩ := bind_ok.1 h
 obtain ⟨-, rfl⟩ := Prod.mk.inj (Except.ok.inj h)
 rw [nameFor] at h1
 split at h1
 · exact nameShared_keeps ht h1 hfree
 · rw [Except.ok.inj h1]

end

/-- No state of a chain is shared: looking at it changes nothing. -/
theorem state_of_free {held : ChainState} (hget : s.states chain = some held)
  (hfree : s.shared = none ∨ s.namesShared held.written = false) :
  s.state chain = .ok (held, s) := by
 have hname : s.namesShared held.written = false := by
  rcases hfree with hs | hn
  · rw [namesShared, hs]
  · exact hn
 refine bind_ok.2 ⟨held, get_ok.2 hget, bind_ok.2 ⟨s, ?_, bind_ok.2 ⟨held, get_ok.2 hget, rfl⟩⟩⟩
 rw [nameFor, hname]
 rfl

/-! ## Closing forks -/

/-- Placing operations and fresh values: what the chains hold stays. -/
structure Grown (s s' : Chains) : Prop where
 next : s.next ≤ s'.next
 types : ∀ v < s.next, s'.types v = s.types v
 keys : s'.keys = s.keys
 states : s'.states = s.states
 shared : s'.shared = s.shared
 nodes : s.nodes ⊆ s'.nodes

theorem Grown.refl (s : Chains) : Grown s s :=
 ⟨Nat.le_refl _, fun _ _ => rfl, rfl, rfl, rfl, Subset.refl _⟩

theorem Grown.follows (h : Grown s s') (nodes : List Node) {v w : Nat}
  (hf : Follows (nodes ++ s.nodes) v w) : Follows (nodes ++ s'.nodes) v w :=
 hf.subset fun _ hn => (mem_append.1 hn).elim (mem_append_left _)
  fun hn => mem_append_right _ (h.nodes hn)

/-- The join of several states follows each of them. -/
theorem merge_ok (s : Chains) {states : List Nat} (hne : states ≠ []) (before : Nat) {resource : StateResource}
  (htypes : ∀ v ∈ states, v < s.next ∧ s.types v = some resource) : Grown s (s.merge states before).2 ∧
   (s.merge states before).1 < (s.merge states before).2.next ∧
   (s.merge states before).2.types (s.merge states before).1 = some resource ∧ ∀ nodes, ∀ v ∈ states,
    Depends (nodes ++ (s.merge states before).2.nodes) v (s.merge states before).1 := by
 have hnodes : (s.merge states before).2.nodes = s.nodes ++ [.join states s.next] := by
  simp [merge, fresh, nodes]
 refine ⟨⟨le_succ _, fun v hv => ?_, rfl, rfl, rfl, ?_⟩, lt_succ_self _, ?_, ?_⟩
 · exact update_of_ne (Nat.ne_of_lt hv) ..
 · grind
 · obtain ⟨first, rest, rfl⟩ := exists_cons_of_ne_nil hne
   refine (update_self ..).trans ?_
   exact (htypes first (.head _)).2
 · intro nodes v hv
   refine Depends.node (.join states s.next) ?_ hv (mem_singleton.2 rfl)
   rw [hnodes]
   simp

/-- The state that closes a fork follows what the chain was written with and every read. -/
theorem joinReads_ok {held : ChainState} {settled : Nat} {resource : StateResource} (before : Nat)
  (hknown : ∀ v ∈ held.written :: held.reads, v < s.next ∧ s.types v = some resource)
  (hforks : ∀ read ∈ held.reads, Depends (nodes ++ s.nodes) held.written read)
  (h : s.joinReads held before = (settled, s')) : Grown s s' ∧ settled < s'.next ∧ s'.types settled = some resource ∧
   Depends (nodes ++ s'.nodes) held.written settled ∧
   ∀ read ∈ held.reads, Depends (nodes ++ s'.nodes) read settled := by
 rw [joinReads] at h
 match hreads : held.reads with
 | [] =>
  rw [hreads] at h
  cases h
  obtain ⟨hlt, hty⟩ := hknown _ (.head _)
  exact ⟨Grown.refl s, hlt, hty, ReflTransGen.refl, by simp⟩
 | [read] =>
  rw [hreads] at h
  obtain ⟨rfl, rfl⟩ := Prod.mk.inj h
  obtain ⟨hlt, hty⟩ := hknown read (by simp [hreads])
  refine ⟨Grown.refl s, hlt, hty, hforks read (by simp [hreads]), fun r hr => ?_⟩
  rw [mem_singleton.1 hr]
  exact ReflTransGen.refl
 | first :: second :: rest =>
  rw [hreads] at h
  obtain ⟨hgrown, hlt, hty, hdep⟩ := s.merge_ok (cons_ne_nil first (second :: rest)) before
   fun v hv => hknown v (by rw [hreads]; exact .tail _ hv)
  cases h
  refine ⟨hgrown, hlt, hty, ?_, hdep nodes⟩
  have hfirst := hforks first (by simp [hreads])
  exact (hfirst.mono fun v w => hgrown.follows nodes).trans (hdep nodes first (.head _))

section

variable {settled before : Nat} (ht : Typed plan s) (hf : Forked nodes s) (h : s.closeFork chain before = .ok (settled, s'))

include ht hf h

/-- Closing a fork names the chain's state once: the second look at the chain changes nothing. -/
theorem closeFork_cases : ∃ held s1 s2, s.state chain = .ok (held, s1) ∧
   (s1.put chain { held with reads := [] }).joinReads held before = (settled, s2) ∧
   s' = s2.put chain ⟨settled, []⟩ := by
 obtain ⟨⟨held, s1⟩, h1, h⟩ := bind_ok.1 h
 obtain ⟨hext, hheld, -, hnone, -⟩ := state_ok ht hf h1
 have hknown := hext.typed.known chain held hheld
 cases hjoin : (s1.put chain { held with reads := [] }).joinReads held before with
 | mk settled' s2 =>
  simp only [hjoin] at h
  obtain ⟨hgrown, -⟩ := joinReads_ok (s := s1.put chain { held with reads := [] }) before hknown
   (hext.forked chain held hheld) hjoin
  have hshared : s2.shared = s1.shared := hgrown.shared
  have hget : s2.states chain = some { held with reads := [] } := by
   rw [hgrown.states]
   exact update_self ..
  have hagain : s2.state chain = .ok ({ held with reads := [] }, s2) := by
   refine state_of_free hget ?_
   rcases hnone with hs | hres
   · exact .inl (hshared.trans hs)
   · cases hs : s1.shared with
     | none => exact .inl (hshared.trans hs)
     | some shared =>
      obtain ⟨hplt, hpty, -⟩ := hext.typed.shared shared hs
      obtain ⟨hwlt, hwty⟩ := hknown _ (.head _)
      have hpty2 : s2.types shared.published = some .memory :=
       (hgrown.types _ hplt).trans hpty
      have hwty2 : s2.types held.written = some (plan.resource chain) :=
       (hgrown.types _ hwlt).trans hwty
      simp [namesShared, hshared, hs, hpty2, hwty2, hres]
  rw [hagain] at h
  cases h
  exact ⟨held, s1, s2, h1, hjoin, rfl⟩

/-- **Closing a fork**: what it leaves follows everything published on the chain. -/
theorem closeFork_ok : Extends plan nodes nodes s s' ∧ s'.states chain = some ⟨settled, []⟩ ∧ s'.Free chain ∧
   (s'.shared = none ∨ plan.resource chain ≠ .memory) ∧ Drains s s' ∧
   ∀ change published, Reaches nodes s change published chain →
    Depends (nodes ++ s'.nodes) published settled := by
 obtain ⟨held, s1, s2, h1, hjoin, rfl⟩ := closeFork_cases ht hf h
 obtain ⟨hext, hheld, hfree, hnone, hkeep⟩ := state_ok ht hf h1
 obtain ⟨hgrown, hlt, hty, hwritten, hreads⟩ := joinReads_ok
  (s := s1.put chain { held with reads := [] }) before (hext.typed.known chain held hheld)
  (hext.forked chain held hheld) hjoin
 have hstates2 : s2.states = update s1.states chain (some { held with reads := [] }) :=
  hgrown.states
 have hput : Extends plan nodes nodes s1 (s2.put chain ⟨settled, []⟩) := by
  refine extends_put ⟨settled, []⟩ hext.typed hext.forked hheld hfree hgrown.next
   hgrown.types hgrown.keys hgrown.shared ?_ (fun v w => hgrown.follows nodes) ?_ (fun _ => rfl)
   hwritten (fun read hr => .inr (hreads read hr)) (by simp)
  · show update s2.states chain _ = _
    rw [hstates2, update_idem]
  · intro v hv
    rw [mem_singleton.1 hv]
    exact ⟨hlt, hty⟩
 have hself : (s2.put chain ⟨settled, []⟩).states chain = some ⟨settled, []⟩ :=
  update_self ..
 have hshared : (s2.put chain ⟨settled, []⟩).shared = s1.shared := hgrown.shared
 have hfree' := hfree.of_shared (.inr hshared)
 refine ⟨hext.trans hput, hself, hfree', hnone.imp_left hshared.trans,
  ⟨fun other st hst => ?_, hkeep.shared.imp hshared.trans hshared.trans⟩,
  fun change published hr => ?_⟩
 · obtain ⟨st', hst', hr⟩ := hkeep.reads other st hst
   by_cases ho : other = chain
   · grind
   · refine ⟨st', ?_, hr⟩
     show update s2.states chain _ other = _
     simp_all
 · obtain ⟨st, hst, hd⟩ := (hext.trans hput).reaches change published chain hr
   cases hself.symm.trans hst
   rcases hd with hd | ⟨-, read, hread, -⟩
   · rwa [hfree'.front] at hd
   · nomatch hread

end

/-- Closing the fork of a chain leaves another that no shared state stands for. -/
theorem closeFork_keeps {other settled before : Nat} (ht : Typed plan s) (hf : Forked nodes s)
  (h : s.closeFork other before = .ok (settled, s')) (hne : chain ≠ other)
  (hfree : s.Free chain) : s'.states chain = s.states chain ∧ s'.Free chain := by
 obtain ⟨-, -, -, -, hdrains, -⟩ := closeFork_ok ht hf h
 refine ⟨?_, hfree.of_shared hdrains.shared⟩
 obtain ⟨held, s1, s2, h1, hjoin, rfl⟩ := closeFork_cases ht hf h
 obtain ⟨hext, hheld, -, -, -⟩ := state_ok ht hf h1
 obtain ⟨hgrown, -⟩ := joinReads_ok
  (s := s1.put other { held with reads := [] }) before (hext.typed.known other held hheld)
  (hext.forked other held hheld) hjoin
 calc (s2.put other ⟨settled, []⟩).states chain
   = s2.states chain := update_of_ne hne ..
  _ = (s1.put other { held with reads := [] }).states chain := by rw [hgrown.states]
  _ = s1.states chain := update_of_ne hne ..
  _ = s.states chain := (state_keeps ht hf h1 hfree).1

/-- What closing a fork leaves on its chain, seen from the chains it began with. -/
structure Settled (plan : Plan) (nodes : List Node) (s s' : Chains) (chain settled : Nat) : Prop where
 state : s'.states chain = some ⟨settled, []⟩
 free : s'.Free chain
 named : s'.shared = none ∨ plan.resource chain ≠ .memory
 follows : ∀ change published, Reaches nodes s change published chain →
  Depends (nodes ++ s'.nodes) published settled

/-- **Closing several forks**. -/
theorem closeForks_ok {chains settled : List Nat} {before : Nat} (hnd : chains.Nodup)
  (ht : Typed plan s) (hf : Forked nodes s) (h : s.closeForks chains before = .ok (settled, s')) :
  Extends plan nodes nodes s s' ∧ Drains s s' ∧ Forall₂ (Settled plan nodes s s') chains settled ∧
   ∀ chain ∉ chains, s.Free chain → s'.states chain = s.states chain := by
 rw [closeForks] at h
 suffices hgen : ∀ closed : List Nat, chains.foldlM (fun closed chain => do
   let closing ← closed.2.closeFork chain before
   return (closed.1 ++ [closing.1], closing.2)) (closed, s) = .ok (settled, s') →
   Extends plan nodes nodes s s' ∧ Drains s s' ∧
    (∃ own, settled = closed ++ own ∧ Forall₂ (Settled plan nodes s s') chains own) ∧
    ∀ chain ∉ chains, s.Free chain → s'.states chain = s.states chain by
  grind
 clear h
 induction chains generalizing s with
 | nil =>
  intro closed h
  obtain ⟨rfl, rfl⟩ := Prod.mk.inj (Except.ok.inj h)
  exact ⟨Extends.refl ht hf, Drains.refl s, ⟨[], by simp, Forall₂.nil⟩, fun _ _ _ => rfl⟩
 | cons chain chains ih =>
  intro closed h
  obtain ⟨hnot, hnd⟩ := nodup_cons.1 hnd
  obtain ⟨⟨closed1, s1⟩, h1, h⟩ := bind_ok.1 h
  obtain ⟨⟨settled1, s2⟩, hclose, h1⟩ := bind_ok.1 h1
  cases h1
  obtain ⟨hext1, hstate1, hfree1, hnamed1, hdrains1, hfollows1⟩ := closeFork_ok ht hf hclose
  obtain ⟨hext, hdrains, ⟨own, rfl, hall⟩, hkeep⟩ := ih hnd hext1.typed hext1.forked _ h
  refine ⟨hext1.trans hext, hdrains1.trans hdrains, ⟨settled1 :: own, by simp, ?_⟩, ?_⟩
  · refine Forall₂.cons ⟨?_, hfree1.of_shared hdrains.shared, ?_, ?_⟩ ?_
    · rw [hkeep chain hnot hfree1, hstate1]
    · refine hnamed1.imp_left fun hs => ?_
      exact hdrains.shared.elim id fun hs' => hs'.trans hs
    · exact fun change published hr => hext.depends (hfollows1 change published hr)
    · refine hall.imp fun c v hc => ?_
      exact ⟨hc.state, hc.free, hc.named, fun change published hr =>
       hc.follows change published (hext1.reaches _ _ _ hr)⟩
  grind [closeFork_keeps]

/-! ## Changes -/

/-- The chains a change touches: all of memory, or the one chain of another resource. -/
structure Touched (plan : Plan) (resource : StateResource) (chains : List Nat) : Prop where
 ne_nil : chains ≠ []
 nodup : chains.Nodup
 of_resource : ∀ chain ∈ chains, plan.resource chain = resource
 single : resource ≠ .memory → chains.length = 1

/-- A state that follows everything published on some chains; nothing is forked off them. -/
structure Taken (plan : Plan) (nodes : List Node) (s s' : Chains) (resource : StateResource)
  (chains : List Nat) (observed : Nat) : Prop where
 known : observed < s'.next ∧ s'.types observed = some resource
 front : ∀ chain ∈ chains, ∃ held, s'.states chain = some held ∧ held.reads = [] ∧
  Depends (nodes ++ s'.nodes) (s'.front chain held) observed
 follows : ∀ chain ∈ chains, ∀ change published, Reaches nodes s change published chain →
  Depends (nodes ++ s'.nodes) published observed
 single : ∀ one, chains = [one] → s'.Free one
 named : ∀ shared, s'.shared = some shared → chains.length ≠ 1 → shared.chains ⊆ chains

theorem subset_of_sameChains {held wanted : List Nat} (hwanted : wanted.Nodup)
  (h : sameChains held wanted = true) : wanted ⊆ held ∧ held ⊆ wanted := by
 simp only [sameChains, decide_eq_true_eq] at h
 have hsub : wanted ⊆ held := h.2
 have hperm := (subperm_of_subset hwanted hsub).perm_of_length_le (Nat.le_of_eq h.1)
 grind

/-- One state after the forks of several chains are closed. -/
theorem joinSettled_ok {resource : StateResource} {settled : List Nat} {before observed : Nat} (hne : settled ≠ [])
  (hknown : ∀ v ∈ settled, v < s.next ∧ s.types v = some resource) (h : s.joinSettled settled before = (observed, s')) :
  Grown s s' ∧ observed < s'.next ∧ s'.types observed = some resource ∧
   ∀ nodes, ∀ v ∈ settled, Depends (nodes ++ s'.nodes) v observed := by
 rw [joinSettled.eq_def] at h
 split at h
 · next one =>
    obtain ⟨rfl, rfl⟩ := Prod.mk.inj h
    obtain ⟨hlt, hty⟩ := hknown one (.head _)
    refine ⟨Grown.refl s, hlt, hty, fun nodes v hv => ?_⟩
    rw [mem_singleton.1 hv]
    exact ReflTransGen.refl
 · have hmerge := s.merge_ok hne before hknown
   grind

/-- Placing operations keeps what the chains reach. -/
theorem Grown.extends (h : Grown s s') (ht : Typed plan s) (hf : Forked nodes s) :
  Extends plan nodes nodes s s' := by
 have hfront : ∀ chain held, s'.front chain held = s.front chain held := fun chain held => by
  simp [front, h.shared]
 refine ⟨h.next, h.types, h.keys, fun v w => h.follows nodes, ⟨?_, ?_, ?_, ?_⟩, ?_, ?_⟩
 · intro chain held hheld v hv
   rw [h.states] at hheld
   obtain ⟨hlt, hty⟩ := ht.known chain held hheld v hv
   exact ⟨Nat.lt_of_lt_of_le hlt h.next, (h.types v hlt).trans hty⟩
 · intro chain held hheld
   rw [h.states] at hheld
   exact ht.single chain held hheld
 · intro shared hs
   rw [h.shared] at hs
   obtain ⟨hlt, hty, hrest⟩ := ht.shared shared hs
   rw [h.states]
   exact ⟨Nat.lt_of_lt_of_le hlt h.next, (h.types _ hlt).trans hty, hrest⟩
 · intro chain
   rw [h.keys, h.states]
   exact ht.carried chain
 · intro chain held hheld read hread
   rw [h.states] at hheld
   exact (hf chain held hheld read hread).mono fun v w => h.follows nodes
 · rintro change published chain ⟨held, hheld, hreach⟩
   refine ⟨held, by rw [h.states]; exact hheld, ?_⟩
   rw [hfront]
   rcases hreach with hd | ⟨hc, read, hread, hd⟩
   · exact .inl (hd.mono fun v w => h.follows nodes)
   · exact .inr ⟨hc, read, hread, hd.mono fun v w => h.follows nodes⟩

theorem Grown.free (h : Grown s s') (hfree : s.Free chain) : s'.Free chain :=
 hfree.of_shared (.inr h.shared)

/-- Either the shared state is the one wanted, or every fork is closed. -/
theorem settle_cases {chains : List Nat} {before observed : Nat} (h : s.settle chains before = .ok (observed, s')) :
  (∃ shared, s.shared = some shared ∧ sameChains shared.chains chains = true ∧ (shared.published, s) = (observed, s')) ∨
   ∃ settled s1, s.closeForks chains before = .ok (settled, s1) ∧
    s1.joinSettled settled before = (observed, s') := by
 rw [settle] at h
 have hforks : settle.settleForks s chains before = .ok (observed, s') →
   ∃ settled s1, s.closeForks chains before = .ok (settled, s1) ∧
    s1.joinSettled settled before = (observed, s') := by
  intro h
  obtain ⟨⟨settled, s1⟩, h1, h⟩ := bind_ok.1 h
  exact ⟨settled, s1, h1, Except.ok.inj h⟩
 grind

/-- **Settling** chains takes one state after everything published on them. -/
theorem settle_ok {resource : StateResource} {chains : List Nat} {before observed : Nat}
  (htouched : Touched plan resource chains) (ht : Typed plan s) (hf : Forked nodes s)
  (h : s.settle chains before = .ok (observed, s')) :
  Extends plan nodes nodes s s' ∧ Taken plan nodes s s' resource chains observed ∧
   ∀ chain ∉ chains, s.Free chain → s'.states chain = s.states chain ∧ s'.Free chain := by
 rcases settle_cases h with ⟨shared, hs, hsame, heq⟩ | ⟨settled, s1, hclose, hjoin⟩
 · cases heq
   obtain ⟨hlt, hty, ⟨hnd, hlen⟩, hall⟩ := ht.shared shared hs
   obtain ⟨hsub, hsub'⟩ := subset_of_sameChains htouched.nodup hsame
   have hfront : ∀ chain ∈ chains, ∀ held, s.front chain held = shared.published := by
    intro chain hc held
    simp [front, hs, if_pos (hsub hc)]
   refine ⟨Extends.refl ht hf, ⟨⟨hlt, ?_⟩, ?_, ?_, ?_, ?_⟩, fun _ _ hfree => ⟨rfl, hfree⟩⟩
   · obtain ⟨chain, rest, rfl⟩ := exists_cons_of_ne_nil htouched.ne_nil
     rw [hty, ← htouched.of_resource chain mem_cons_self]
     grind
   · intro chain hc
     obtain ⟨-, held, hheld, hnil⟩ := hall chain (hsub hc)
     refine ⟨held, hheld, hnil, ?_⟩
     rw [hfront chain hc]
     exact ReflTransGen.refl
   · rintro chain hc change published ⟨held, hheld, hreach⟩
     obtain ⟨-, held0, hheld0, hnil⟩ := hall chain (hsub hc)
     cases hheld.symm.trans hheld0
     rw [hfront chain hc, hnil] at hreach
     rcases hreach with hd | ⟨-, read, hread, -⟩
     · exact hd
     · cases hread
   · rintro one rfl
     simp only [sameChains, decide_eq_true_eq] at hsame
     exact absurd hsame.1 hlen
   grind
 · obtain ⟨hext, hdrains, hall, hkeep⟩ := closeForks_ok htouched.nodup ht hf hclose
   have hlen := hall.length_eq
   have hne : settled ≠ [] := by
    rintro rfl
    exact htouched.ne_nil (length_eq_zero_iff.1 hlen)
   have hmem : ∀ chain ∈ chains, ∃ v ∈ settled, Settled plan nodes s s1 chain v :=
    fun chain hc => forall₂_iff_get.1 hall |>.2 |> fun hget => by
     obtain ⟨i, hi, rfl⟩ := mem_iff_getElem.1 hc
     grind
   have hknown : ∀ v ∈ settled, v < s1.next ∧ s1.types v = some resource := by
    intro v hv
    obtain ⟨i, hi, rfl⟩ := mem_iff_getElem.1 hv
    have hi' : i < chains.length := hlen ▸ hi
    have hset := (forall₂_iff_get.1 hall).2 i hi' hi
    obtain ⟨hlt, hty⟩ := hext.typed.known _ _ hset.state _ (.head _)
    exact ⟨hlt, hty.trans (congrArg some (htouched.of_resource _ (getElem_mem hi')))⟩
   obtain ⟨hgrown, hlt, hty, hdep⟩ := joinSettled_ok hne hknown hjoin
   have hext' := hext.trans (hgrown.extends hext.typed hext.forked)
   refine ⟨hext', ⟨⟨hlt, hty⟩, ?_, ?_, ?_, ?_⟩, ?_⟩
   · intro chain hc
     obtain ⟨v, hv, hset⟩ := hmem chain hc
     refine ⟨⟨v, []⟩, by rw [hgrown.states]; exact hset.state, rfl, ?_⟩
     rw [(hgrown.free hset.free).front]
     exact hdep nodes v hv
   · intro chain hc change published hr
     obtain ⟨v, hv, hset⟩ := hmem chain hc
     exact ((hset.follows change published hr).mono fun v w => hgrown.follows nodes).trans
      (hdep nodes v hv)
   · rintro one rfl
     obtain ⟨v, hv, hset⟩ := hmem one (.head _)
     exact hgrown.free hset.free
   · intro shared hs hlen'
     obtain ⟨chain, rest, rfl⟩ := exists_cons_of_ne_nil htouched.ne_nil
     obtain ⟨v, hv, hset⟩ := hmem chain (.head _)
     rcases hset.named with hnone | hres
     · rw [hgrown.shared, hnone] at hs
       cases hs
     · rw [htouched.of_resource chain mem_cons_self] at hres
       exact absurd (htouched.single hres) hlen'
   · intro chain hc hfree
     refine ⟨?_, hgrown.free (hfree.of_shared hdrains.shared)⟩
     rw [hgrown.states, hkeep chain hc hfree]

/-- **Writing a chain** from which nothing is forked off: the state follows what it was written
with. -/
theorem write_ok {published : Nat} {held : ChainState} (ht : Typed plan s) (hf : Forked nodes s)
  (hfree : s.Free chain) (hheld : s.states chain = some held) (hnil : held.reads = [])
  (hknown : published < s.next ∧ s.types published = some (plan.resource chain))
  (hdep : Depends (nodes ++ s.nodes) held.written published)
  (h : (do
   let (held, s) ← s.state chain
   return s.put chain { held with written := published }) = .ok s') :
  Extends plan nodes nodes s s' ∧ Reaches nodes s' true published chain ∧
   (s'.states chain = some ⟨published, []⟩ ∧ s'.Free chain) ∧
   ∀ other ≠ chain, s.Free other → s'.states other = s.states other ∧ s'.Free other := by
 obtain ⟨⟨held1, s1⟩, h1, h⟩ := bind_ok.1 h
 cases h
 obtain ⟨hext, hheld1, hfree1, -, -⟩ := state_ok ht hf h1
 obtain ⟨hsame, -⟩ := state_keeps ht hf h1 hfree
 obtain rfl : held1 = held := some.inj (hheld1.symm.trans (hsame.trans hheld))
 have hput : Extends plan nodes nodes s1 (s1.put chain { held1 with written := published }) := by
  refine extends_put { held1 with written := published } hext.typed hext.forked hheld1
   hfree1 (Nat.le_refl _) (fun _ _ => rfl) rfl rfl rfl (fun _ _ hvw => hvw) ?_
   (fun _ => hnil) (hext.depends hdep) ?_ ?_
  · intro v hv
    rw [hnil] at hv
    rw [mem_singleton.1 hv]
    exact ⟨Nat.lt_of_lt_of_le hknown.1 hext.next, (hext.types _ hknown.1).trans hknown.2⟩
  · simp [hnil]
  · simp [hnil]
 have hfree2 : (s1.put chain { held1 with written := published }).Free chain := hfree1
 refine ⟨hext.trans hput, ⟨_, update_self .., .inl ?_⟩, ⟨?_, hfree2⟩, ?_⟩
 · rw [hfree2.front]
   exact ReflTransGen.refl
 · simp_all
 · intro other hne hfree'
   obtain ⟨hsame', hfree₁'⟩ := state_keeps ht hf h1 hfree'
   exact ⟨(update_of_ne hne ..).trans hsame', hfree₁'⟩

/-- **Leaving a change**: its state stands on every chain it touches. -/
theorem split_ok {resource : StateResource} {chains : List Nat} {after published : Nat}
  (htouched : Touched plan resource chains) (ht : Typed plan s) (hf : Forked nodes s)
  (hknown : published < s.next ∧ s.types published = some resource)
  (hfront : ∀ chain ∈ chains, ∃ held, s.states chain = some held ∧ held.reads = [] ∧
   Depends (nodes ++ s.nodes) (s.front chain held) published) (hsingle : ∀ one, chains = [one] → s.Free one)
  (hnamed : ∀ shared, s.shared = some shared → chains.length ≠ 1 → shared.chains ⊆ chains)
  (h : s.split chains after published = .ok s') :
  Extends plan nodes nodes s s' ∧ (∀ chain ∈ chains, Reaches nodes s' true published chain) ∧
   ∀ chain ∉ chains, s.Free chain → s'.states chain = s.states chain ∧ s'.Free chain := by
 rw [split.eq_def] at h
 split at h
 · next one =>
    have hfree := hsingle one rfl
    obtain ⟨held, hheld, hnil, hdep⟩ := hfront one (.head _)
    rw [hfree.front] at hdep
    rw [← htouched.of_resource one mem_cons_self] at hknown
    obtain ⟨hext, hreaches, -, hkeeps⟩ := write_ok ht hf hfree hheld hnil hknown hdep h
    refine ⟨hext, fun chain hc => ?_, fun chain hc => hkeeps chain ?_⟩
    · grind
    grind
 · next hmany =>
    cases h
    have hlen : chains.length ≠ 1 := by
     intro hone
     obtain ⟨one, rfl⟩ := length_eq_one_iff.1 hone
     exact hmany one rfl
    have hmemo : resource = .memory := by
     by_contra hres
     exact hlen (htouched.single hres)
    subst hmemo
    refine ⟨⟨Nat.le_refl _, fun _ _ => rfl, rfl, fun _ _ hvw => hvw,
     ⟨ht.known, ht.single, ?_, ht.carried⟩, hf, ?_⟩, fun chain hc => ?_, fun chain hc hfree => ?_⟩
    · intro shared hs
      cases hs
      refine ⟨hknown.1, hknown.2, ⟨htouched.nodup, hlen⟩, fun chain hc => ?_⟩
      obtain ⟨held, hheld, hnil, -⟩ := hfront chain hc
      exact ⟨htouched.of_resource chain hc, held, hheld, hnil⟩
    · rintro change p chain ⟨held, hheld, hreach⟩
      refine ⟨held, hheld, ?_⟩
      by_cases hc : chain ∈ chains
      · obtain ⟨held0, hheld0, hnil, hdep⟩ := hfront chain hc
        cases hheld.symm.trans hheld0
        rw [hnil] at hreach
        have hfront' : front { s with shared := some ⟨chains, published, after⟩ } chain held =
          published := if_pos hc
        rw [hfront']
        rcases hreach with hd | ⟨-, read, hread, -⟩
        · exact .inl (hd.trans hdep)
        · nomatch hread
      · have hfree : s.Free chain := fun shared hs hmem => hc (hnamed shared hs hlen hmem)
        have hfront' : front { s with shared := some ⟨chains, published, after⟩ } chain held =
          held.written := if_neg hc
        rw [hfree.front] at hreach
        rw [hfront']
        exact hreach
    · obtain ⟨held, hheld, -, -⟩ := hfront chain hc
      refine ⟨held, hheld, .inl ?_⟩
      have hfront' : front { s with shared := some ⟨chains, published, after⟩ } chain held =
        published := if_pos hc
      rw [hfront']
      exact ReflTransGen.refl
    · refine ⟨rfl, fun shared hs => ?_⟩
      grind

end Chains

end Tir.Restructure
