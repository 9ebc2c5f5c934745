import Tir.Egraph.EngineRebuild

/-!
# The e-graph is sound

A run of calls on an engine, legal where it names classes that were minted, ends. Under every
interpretation in which the pairs it unites are equal, each reference it gave is the value of its node over
its operands, and references found equal have one value (`Engine.run_sound`).
-/

open List Option

namespace Tir.Egraph

open Tir.Relational

variable {L : Type} [Label L]

/-! ## Calls -/

inductive Call (L : Type) where
 | add (node : Node L)
 | insert (node : Node L) (operands : List Ref)
 | union (a b : Ref)
 | rebuild
 | takeChanged

inductive Reply where
 | value (found : Ref)
 | united (representative : Option Nat)
 | done
deriving DecidableEq

namespace Engine

def perform (e : Engine L) : Call L → Option (Engine L × Reply)
 | .add node => (e.add node).map fun added => (added.1, .value added.2)
 | .insert node operands => (e.insert node operands).map fun inserted => (inserted.1, .value inserted.2)
 | .union a b => some ((e.union a b).1, .united (e.union a b).2)
 | .rebuild => e.rebuild.map fun e => (e, .done)
 | .takeChanged => some (e.takeChanged, .done)

/-- The calls one after the other, and what they gave. -/
def run (e : Engine L) : List (Call L) → Option (Engine L × List Reply)
 | [] => some (e, [])
 | call :: calls => (e.perform call).bind fun performed =>
  (run performed.1 calls).map fun rest => (rest.1, performed.2 :: rest.2)

end Engine

namespace Call

/-- A node has the children its label takes, and a call names classes that were minted. -/
def Legal (e : Engine L) : Call L → Prop
 | add node => node.children.length = Label.arity node.label ∧ ∀ child ∈ node.children, child < e.classCount
 | insert node operands => node.children.length = Label.arity node.label ∧ operands.length = node.children.length ∧
   ∀ ref ∈ operands, ref.id < e.classCount
 | union a b => a.id < e.classCount ∧ b.id < e.classCount
 | rebuild => True
 | takeChanged => True

/-- Every call is legal where it is made. -/
def AllLegal (e : Engine L) : List (Call L) → Prop
 | [] => True
 | call :: calls => call.Legal e ∧ ∀ e' reply, e.perform call = some (e', reply) → AllLegal e' calls

instance (e : Engine L) : (call : Call L) → Decidable (call.Legal e)
 | add _ => inferInstanceAs (Decidable (_ ∧ _))
 | insert _ _ => inferInstanceAs (Decidable (_ ∧ _ ∧ _))
 | union _ _ => inferInstanceAs (Decidable (_ ∧ _))
 | rebuild => inferInstanceAs (Decidable True)
 | takeChanged => inferInstanceAs (Decidable True)

/-- Whether every call is legal, found by making them. -/
def allLegal (e : Engine L) : List (Call L) → Bool
 | [] => true
 | call :: calls => call.Legal e && (e.perform call).all fun performed => allLegal performed.1 calls

theorem allLegal_iff {e : Engine L} {calls : List (Call L)} : allLegal e calls = true ↔ AllLegal e calls := by
 induction calls generalizing e with
 | nil => exact ⟨fun _ => trivial, fun _ => rfl⟩
 | cons call calls ih =>
  rw [allLegal, AllLegal, Bool.and_eq_true, decide_eq_true_iff, Option.all_eq_true]
  grind

variable {D : Type} (I : Interpretation L D) (env : Nat → Value D)

/-- A node is one its label is a function on, and the pair of a union has equal values. -/
def Respected : Call L → Prop
 | add node => Label.unique node.label = false → I.Takes node.label (node.children.map fun child => Ref.value env ⟨child, 0⟩)
 | insert node operands => Label.unique node.label = false → I.Takes node.label (operands.map (Ref.value env))
 | union a b => a.value env = b.value env
 | rebuild => True
 | takeChanged => True

/-- The reference a call gives is the value of its node over its operands. -/
def Evaluates : Call L → Reply → Prop
 | add node, .value found => I.Evaluates node.label (node.children.map fun child => Ref.value env ⟨child, 0⟩) (found.value env)
 | insert node operands, .value found => I.Evaluates node.label (operands.map (Ref.value env)) (found.value env)
 | _, _ => True

end Call

/-! ## Steps -/

namespace Engine

variable {e e' : Engine L} {D : Type} {I : Interpretation L D} {env : Nat → Value D}

theorem kept_over {vocabulary : Vocabulary L} (h : vocabulary.Met) : (overVocabulary vocabulary).Kept ∧
  (overVocabulary vocabulary).nodes = [] ∧ ∀ {D : Type} (I : Interpretation L D) (env : Nat → Value D), (overVocabulary vocabulary).Holds I env := by
 obtain ⟨hkept, htables⟩ := addTables_spec Database.kept_new vocabulary.shapes
 have hdb : (overVocabulary vocabulary).db = { Database.new with
  tables := vocabulary.shapes.map fun shape => Table.new shape.layout } := htables
 have hget : ∀ (slot : Nat) t, (overVocabulary vocabulary).db.tables[slot]? = some t →
   ∃ shape, vocabulary.shapes[slot]? = some shape ∧ t = Table.new shape.layout := by
  grind
 have hempty : ∀ (slot : Nat) t, (overVocabulary vocabulary).db.tables[slot]? = some t → ∀ row, ¬ row < t.len := by
  intro slot t ht row hrow
  obtain ⟨shape, -, rfl⟩ := hget slot t ht
  cases hrow
 have hspace : (overVocabulary vocabulary).db.space = Space.new := congrArg Database.space hdb
 refine ⟨⟨h.formed, hkept, fun slot t ht => ?_, ?_, fun slot t ht row hrow => absurd hrow (hempty slot t ht row), by rintro _ ⟨⟩⟩, rfl,
  fun I env => ⟨⟨hkept.space.uf, ?_, ?_⟩, by rintro _ ⟨⟩, fun slot t ht row hrow => absurd hrow (hempty slot t ht row)⟩⟩
 · obtain ⟨shape, hshape, rfl⟩ := hget slot t ht
   exact ⟨shape, hshape, rfl⟩
 · rw [classCount, hspace]
   rfl
 · rw [hspace]
   exact ⟨by rintro _ ⟨⟩, by rintro _ ⟨⟩⟩
 · rw [hspace]
   rintro _ ⟨⟩

theorem takeChanged_spec (h : e.Kept) : e.takeChanged.Kept ∧ Extends e e.takeChanged ∧
  ∀ {D : Type} (I : Interpretation L D) (env : Nat → Value D), e.Holds I env → e.takeChanged.Holds I env := by
 have hget : ∀ (slot : Nat) t, e.takeChanged.db.tables[slot]? = some t →
   ∃ before, e.db.tables[slot]? = some before ∧ t = before.mark := by
  intro slot t ht
  have ht' : (e.db.tables.map Table.mark)[slot]? = some t := ht
  grind
 refine ⟨⟨h.vocabulary, h.db.advance, fun slot t ht => ?_, h.nodes, fun slot t ht row hrow => ?_, h.zeros⟩,
  ⟨Vocabulary.Grows.refl _, fun _ => id, prefix_refl _⟩, fun I env hholds =>
  ⟨hholds.placed, hholds.zeros, fun slot t ht row hrow => ?_⟩⟩
 · obtain ⟨before, hbef, rfl⟩ := hget slot t ht
   exact h.tables slot before hbef
 · obtain ⟨before, hbef, rfl⟩ := hget slot t ht
   exact h.rows slot before hbef row hrow
 · obtain ⟨before, hbef, rfl⟩ := hget slot t ht
   exact hholds.rows slot before hbef row hrow

/-- What a call leaves, and what it gives. -/
structure Performs (e : Engine L) (call : Call L) (e' : Engine L) (reply : Reply) : Prop where
 kept : e'.Kept
 grows : Extends e e'
 ordered : Ordered e.nodes → Ordered e'.nodes
 value : ∀ {D : Type} (I : Interpretation L D) (env : Nat → Value D), e.Holds I env → I.Models env e'.nodes →
  call.Respected I env → e'.Holds I env ∧ call.Evaluates I env reply

/-- A legal call ends. -/
theorem perform_performs (h : e.Kept) {call : Call L} (hlegal : call.Legal e) :
  ∃ e' reply, e.perform call = some (e', reply) ∧ Performs e call e' reply := by
 cases call with
 | add node =>
  obtain ⟨e', found, hadd, hinterns⟩ := add_interns h node hlegal.1 hlegal.2
  refine ⟨e', .value found, by rw [perform, hadd]; rfl, hinterns.kept, hinterns.grows, hinterns.ordered,
   fun I env hholds hmodels htakes => ?_⟩
  have hmap : (node.children.map fun child => (⟨child, 0⟩ : Ref)).map (Ref.value env) =
    node.children.map fun child => Ref.value env ⟨child, 0⟩ := List.map_map
  have hval := hinterns.value I env hholds hmodels
  rw [hmap] at hval
  exact hval htakes
 | insert node operands =>
  obtain ⟨e', found, hinsert, hinterns⟩ := insert_interns h node hlegal.1 hlegal.2.1 hlegal.2.2
  exact ⟨e', .value found, by rw [perform, hinsert]; rfl, hinterns.kept, hinterns.grows, hinterns.ordered,
   hinterns.value⟩
 | union a b =>
  obtain ⟨hunites, hholds⟩ := union_unites h hlegal.1 hlegal.2
  refine ⟨_, _, rfl, hunites.kept, hunites.grows, ?_, fun I env hbef _ heq => ⟨hholds I env hbef heq, trivial⟩⟩
  rw [hunites.nodes]
  exact id
 | rebuild =>
  obtain ⟨e', hrun, hrebuilds⟩ := rebuild_rebuilds h
  refine ⟨e', .done, by rw [perform, hrun]; rfl, hrebuilds.unites.kept, hrebuilds.unites.grows, ?_,
   fun I env hbef _ _ => ⟨hrebuilds.holds I env hbef, trivial⟩⟩
  rw [hrebuilds.unites.nodes]
  exact id
 | takeChanged =>
  obtain ⟨hkept, hgrows, hholds⟩ := takeChanged_spec h
  exact ⟨_, _, rfl, hkept, hgrows, id, fun I env hbef _ _ => ⟨hholds I env hbef, trivial⟩⟩

/-! ## Runs -/

/-- What a run of calls leaves, and what they gave. -/
structure Runs (e : Engine L) (calls : List (Call L)) (e' : Engine L) (replies : List Reply) : Prop where
 kept : e'.Kept
 grows : Extends e e'
 ordered : Ordered e.nodes → Ordered e'.nodes
 value : ∀ {D : Type} (I : Interpretation L D) (env : Nat → Value D), e.Holds I env → I.Models env e'.nodes →
  (∀ call ∈ calls, call.Respected I env) → e'.Holds I env ∧ Forall₂ (Call.Evaluates I env) calls replies

theorem run_runs {calls : List (Call L)} (h : e.Kept) (hlegal : Call.AllLegal e calls) :
  ∃ e' replies, e.run calls = some (e', replies) ∧ Runs e calls e' replies := by
 induction calls generalizing e with
 | nil => exact ⟨e, [], rfl, h, Extends.refl e, id, fun I env hholds _ _ => ⟨hholds, Forall₂.nil⟩⟩
 | cons call calls ih =>
  obtain ⟨e1, reply, hperform, hperforms⟩ := perform_performs h hlegal.1
  obtain ⟨e', replies, hrun, hruns⟩ := ih hperforms.kept (hlegal.2 e1 reply hperform)
  refine ⟨e', reply :: replies, ?_, hruns.kept, hperforms.grows.trans hruns.grows,
   fun hord => hruns.ordered (hperforms.ordered hord), fun I env hholds hmodels hrespected => ?_⟩
  · rw [run, hperform, bind_some, hrun]
    rfl
  · obtain ⟨hholds1, hevaluates⟩ := hperforms.value I env hholds (hmodels.shrink hruns.grows.nodes)
     (hrespected call (.head _))
    obtain ⟨hholds', hrest⟩ := hruns.value I env hholds1 hmodels fun call' hin =>
     hrespected call' (.tail _ hin)
    exact ⟨hholds', Forall₂.cons hevaluates hrest⟩

/-- **Soundness.** A legal run of calls ends. Under every interpretation that respects it, every reference
it gave is the value of its node over its operands, and references found equal have one value. -/
theorem run_sound {vocabulary : Vocabulary L} (hmet : vocabulary.Met) {calls : List (Call L)}
  (hlegal : Call.AllLegal (overVocabulary vocabulary) calls) :
  ∃ e replies, (overVocabulary vocabulary).run calls = some (e, replies) ∧
   ∀ {D : Type} (I : Interpretation L D), (∀ call ∈ calls, call.Respected I (I.env e.nodes)) →
    Forall₂ (Call.Evaluates I (I.env e.nodes)) calls replies ∧
    ∀ a b : Ref, a.id < e.classCount → b.id < e.classCount → e.find a = e.find b →
     a.value (I.env e.nodes) = b.value (I.env e.nodes) := by
 obtain ⟨hkept, hnodes, hholds⟩ := kept_over hmet
 obtain ⟨e, replies, hrun, hruns⟩ := run_runs hkept hlegal
 refine ⟨e, replies, hrun, fun I hrespected => ?_⟩
 have hord : Ordered e.nodes := hruns.ordered (by rw [hnodes]; exact nofun)
 obtain ⟨hholds', hevaluates⟩ := hruns.value I _ (hholds I _) (Meaning.models_env hord) hrespected
 exact ⟨hevaluates, fun a b ha hb hfound => hholds'.placed.holds.value_eq hholds'.placed.formed ha hb hfound⟩

section Sums

open ByteLabel

/-- Sums of two inputs, that are then united. -/
def sums : List (Call ByteLabel) :=
 [.add ⟨input 0, []⟩, .add ⟨input 1, []⟩, .insert ⟨sum, [0, 1]⟩ [⟨0, 1⟩, ⟨1, 0⟩], .add ⟨sum, [1, 0]⟩,
  .union ⟨0, 1⟩ ⟨1, 0⟩, .rebuild]

theorem run_sound_sums : ∃ e replies, (overVocabulary Vocabulary.empty).run sums = some (e, replies) ∧
  Forall₂ (Call.Evaluates bytes (bytes.env e.nodes)) sums replies ∧
  ∀ a b : Ref, a.id < e.classCount → b.id < e.classCount → e.find a = e.find b →
   a.value (bytes.env e.nodes) = b.value (bytes.env e.nodes) := by
 obtain ⟨e, replies, hrun, hsound⟩ := run_sound Vocabulary.Met.empty
  (Call.allLegal_iff.1 (by decide +kernel : Call.allLegal (overVocabulary Vocabulary.empty) sums = true))
 have hnodes : ((overVocabulary Vocabulary.empty).run sums).map (fun ran => ran.1.nodes) =
   some [⟨⟨input 0, []⟩, 0, 0, none⟩, ⟨⟨input 1, []⟩, 1, 1, none⟩, ⟨⟨sum, [0, 1]⟩, 2, 2, none⟩] := by
  decide +kernel
 rw [hrun, map_some, some_inj] at hnodes
 refine ⟨e, replies, hrun, hsound bytes ?_⟩
 have hnodes' : e.nodes = _ := hnodes
 rw [hnodes']
 -- the `i`-th input is `i`, so that one more than the first is the second
 refine forall_mem_cons.2 ⟨fun _ => ⟨rfl, rfl, nofun⟩, forall_mem_cons.2 ⟨fun _ => ⟨rfl, rfl, nofun⟩, ?_⟩⟩
 have hcarriers : ∀ carrier ∈ [some byte, some byte], carrier = some byte := by decide
 refine forall_mem_cons.2 ⟨fun _ => ⟨rfl, rfl, hcarriers⟩, forall_mem_cons.2 ⟨fun _ => ⟨rfl, rfl, hcarriers⟩, ?_⟩⟩
 exact forall_mem_cons.2 ⟨rfl, forall_mem_cons.2 ⟨trivial, nofun⟩⟩

end Sums

end Engine

end Tir.Egraph
