import Tir.RegAlloc.SplitCorrect

/-!
# Executions before and after the split

An execution of the old code and one of the new code along the same path agree when every value
has its own name as before and every held value also has it under the name that reaches the
point (`Agree`). Operations keep this (`Agree.step`, `Agree.jump`), so that the executions
of the two codes are the same, with the same operands at every operation
(`SplitInput.sameReads`).
-/

open List

namespace Tir.RegAlloc

open Tir.Graph Tir.Backend SplitInput

/-! ## Assignments -/

section

variable {N Val : Type} [DecidableEq N]

variable {names : List N}

theorem lookup_zip_none {x : N} (hx : x ∉ names) (values : List Val) :
  (names.zip values).lookup x = none := by
 rw [lookup_eq_none_iff]
 rintro ⟨y, v⟩ hmem
 have hy : y ∈ names := (of_mem_zip hmem).1
 grind

theorem assign_of_notMem (env : N → Val) (values : List Val) {x : N}
  (hx : x ∉ names) : assign env names values x = env x := by
 rw [assign, lookup_zip_none hx, Option.getD_none]

/-- Names that take their values from one list of places. -/
theorem assign_map {α : Type} (env : N → Val) (l : List α) (name : α → N) (value : α → Val)
  (hsame : ∀ a ∈ l, ∀ b ∈ l, name a = name b → value a = value b) {a : α} (ha : a ∈ l) :
  assign env (l.map name) (l.map value) (name a) = value a := by
 have hlook : ((l.map name).zip (l.map value)).lookup (name a) = some (value a) := by
  induction l with
  | nil => nomatch ha
  | cons b l ih =>
   rw [map_cons, map_cons, zip_cons_cons, lookup_cons]
   by_cases hab : name a = name b
   · grind
   grind
 rw [assign, hlook, Option.getD_some]

theorem assign_append (env : N → Val) {more : List N} {values others : List Val}
  (hlen : names.length = values.length) (x : N) : assign env (names ++ more) (values ++ others) x =
   assign (assign env more others) names values x := by
 rw [assign, zip_append hlen, lookup_append, assign, assign]
 grind

end

theorem lookup_map_original {n : Nat} {Val : Type} (names : List Nat) (values : List Val) (v : Nat) :
  ((names.map (Name.original (n := n))).zip values).lookup (.original v) =
    (names.zip values).lookup v := by
 induction names generalizing values with
 | nil => rfl
 | cons w names ih =>
  cases values with
  | nil => rfl
  | cons a values =>
   rw [map_cons, zip_cons_cons, zip_cons_cons, lookup_cons,
    lookup_cons, ih]
   by_cases hvw : v = w
   · rw [hvw, beq_self_eq_true, beq_self_eq_true]
   grind

theorem assign_original {n : Nat} {Val : Type} {env : Nat → Val} {env' : Name n → Val}
  (h : ∀ v, env' (.original v) = env v) (names : List Nat) (values : List Val) (v : Nat) :
  assign env' (names.map .original) values (.original v) = assign env names values v := by
 rw [assign, assign, lookup_map_original, h]

/-! ## Agreement -/

variable {B : Type} [DecidableEq B] {f : MachineFunction B} {r : Naming f.cfg.size} {Val S : Type}

/-- The environments of the two codes before the operation at an index. -/
structure Agree (r : Naming f.cfg.size) (b : Fin f.cfg.size) (i : Nat) (env : Nat → Val)
  (env' : Name f.cfg.size → Val) : Prop where
 own : ∀ v, env' (.original v) = env v
 held : ∀ v, Held f v b i → env' (r.nameAt v b (before i)) = env v

section

variable {b : Fin f.cfg.size} {i : Nat} {env : Nat → Val} {env' : Name f.cfg.size → Val} {op : Instr f.cfg.size Nat}

section

variable (h : SplitInput f r) (ha : Agree r b i env env')

include h ha

/-- The copy before an operation gives its values their new names. -/
theorem Agree.copyEnv : (∀ v, (splitOp f.code r b i op).copyEnv env' (.original v) = env v) ∧
   ∀ v, Held f v b i → (splitOp f.code r b i op).copyEnv env' (r.nameAt v b (point i)) = env v := by
 have hout : ∀ x, (∀ v, CopiedAt r.sites v b i → x ≠ .copy b i v) →
   (splitOp f.code r b i op).copyEnv env' x = env' x := by
  intro x hx
  refine assign_of_notMem env' _ fun hmem => ?_
  obtain ⟨v, hv, rfl⟩ := h.mem_copied.1 hmem
  exact hx v hv rfl
 refine ⟨fun v => ?_, fun v hv => ?_⟩
 · rw [hout _ fun _ _ => by simp]
   exact ha.own v
 · by_cases hcopied : CopiedAt r.sites v b i
   · have hmem : (Name.copy b i v, r.nameAt v b (before i)) ∈ copiesAt r b i :=
      h.mem_copiesAt.2 ⟨v, hcopied, rfl⟩
     have hasgn := assign_map env' (copiesAt r b i) Prod.fst (fun c => env' c.2)
      (by
       intro c hc d hd heq
       obtain ⟨v, -, rfl⟩ := h.mem_copiesAt.1 hc
       obtain ⟨w, -, rfl⟩ := h.mem_copiesAt.1 hd
       rw [(Name.copy.inj heq).2.2]) hmem
     rw [nameAt_copied hcopied]
     exact hasgn.trans (ha.held v hv)
   · rw [nameAt_not_copied hcopied, hout]
     · exact ha.held v hv
     · rintro w hw heq
       have hval := nameAt_value (r := r) v b (before i)
       rw [heq] at hval
       have hwv : w = v := hval
       exact hcopied (hwv ▸ hw)

/-- The operands of an operation are what they were. -/
theorem Agree.reads (hb : Reachable (Edge f.cfg.edges) f.cfg.entry b) (hop : (f.code.ops b)[i]? = some op)
  {l : List Nat} (hl : l ⊆ op.reads) :
  (l.map (rename r b i)).map ((splitOp f.code r b i op).copyEnv env') = l.map env := by
 rw [map_map]
 refine map_congr_left fun v hv => ?_
 show (splitOp f.code r b i op).copyEnv env' (rename r b i v) = env v
 rw [h.rename_eq]
 exact (ha.copyEnv h).2 v (held_of_read hb hop (hl hv))

/-- After the results of an operation the environments still agree. -/
theorem Agree.results (hb : Reachable (Edge f.cfg.edges) f.cfg.entry b) (hop : (f.code.ops b)[i]? = some op)
  (results : List Val) : (∀ v, assign ((splitOp f.code r b i op).copyEnv env') (op.defs.map .original) results
    (.original v) = assign env op.defs results v) ∧ ∀ v, Held f v b (i + 1) →
    assign ((splitOp f.code r b i op).copyEnv env') (op.defs.map .original) results
     (r.nameAt v b (point i)) = assign env op.defs results v := by
 obtain ⟨hown, hheld⟩ := Agree.copyEnv (r := r) h ha
 refine ⟨assign_original hown _ _, fun v hv => ?_⟩
 by_cases hdef : v ∈ op.defs
 · rw [h.nameAt_of_def hb hop hdef]
   exact assign_original hown _ _ v
 · have hheld' := (hv.of_succ hop).resolve_left hdef
   rw [assign_of_notMem _ _ hdef, assign_of_notMem]
   · exact hheld v hheld'
   · intro hmem
     obtain ⟨w, hw, heq⟩ := mem_map.1 hmem
     have hval := nameAt_value (r := r) v b (point i)
     rw [← heq] at hval
     have hwv : w = v := hval
     exact hdef (hwv ▸ hw)

theorem Agree.step (hb : Reachable (Edge f.cfg.edges) f.cfg.entry b) (hop : (f.code.ops b)[i]? = some op)
  (results : List Val) : Agree r b (i + 1) (assign env op.defs results)
   (assign ((splitOp f.code r b i op).copyEnv env') (op.defs.map .original) results) := by
 obtain ⟨hown, hheld⟩ := ha.results h hb hop results
 refine ⟨hown, fun v hv => ?_⟩
 rw [nameAt_next]
 exact hheld v hv

end

/-- A branch passes the parameters of its target, old and new. -/
theorem Agree.jump (h : SplitInput f r) (hc : CopiedBeforeBranches f r.sites)
  (ha : Agree r b i env env') (hb : Reachable (Edge f.cfg.edges) f.cfg.entry b)
  (hop : (f.code.ops b)[i]? = some op) {x : Fin f.cfg.size} (hx : x ∈ op.succs) (results : List Val) :
  Agree r x 0 (assign (assign env op.defs results) (f.code.params x) (op.args.map env)) (assign
    (assign ((splitOp f.code r b i op).copyEnv env') (op.defs.map .original) results) ((splitCode f.code r).params x)
    ((splitOp f.code r b i op).args.map ((splitOp f.code r b i op).copyEnv env'))) := by
 obtain ⟨hown, hheld⟩ := ha.results h hb hop results
 have hopmem := mem_of_getElem? hop
 -- the old parameters take the old arguments, the new ones the added arguments
 have hargs : ∃ added : List Val, added = (argsAt f.code r b i).map
    ((splitOp f.code r b i op).copyEnv env') ∧
   (splitOp f.code r b i op).args.map ((splitOp f.code r b i op).copyEnv env') =
    op.args.map env ++ added ∧ (f.code.params x).length = (op.args.map env).length ∧
   (∀ v ∈ r.met x, op.vbr = true ∧ op.succs = [x]) := by
  refine ⟨_, rfl, ?_, ?_, ?_⟩
  · rw [← ha.reads h hb hop (l := op.args) (subset_append_right _ _), ← map_append]
    rfl
  · cases hv : op.vbr with
    | true =>
     obtain ⟨-, y, hy, hlen⟩ := f.vbr_args b op hopmem hv
     grind
    | false =>
     obtain ⟨hnil, hparams⟩ := f.branch_args b op hopmem hv
     grind
  · intro v hm
    cases hv : op.vbr with
    | true =>
     obtain ⟨-, y, hy, -⟩ := f.vbr_args b op hopmem hv
     grind
    | false =>
     rw [h.passed b i op x hop hv hx] at hm
     nomatch hm
 obtain ⟨added, hadded, hargs, hlen, hmet⟩ := hargs
 have hlen' : ((f.code.params x).map (Name.original (n := f.cfg.size))).length =
   (op.args.map env).length := by
  rw [length_map, hlen]
 have hsplit : ∀ y, assign
   (assign ((splitOp f.code r b i op).copyEnv env') (op.defs.map .original) results)
   ((splitCode f.code r).params x)
   ((splitOp f.code r b i op).args.map ((splitOp f.code r b i op).copyEnv env')) y =
   assign (assign (assign ((splitOp f.code r b i op).copyEnv env')
    (op.defs.map .original) results) ((r.met x).map (.param x)) added)
    ((f.code.params x).map .original) (op.args.map env) y := by
  intro y
  rw [hargs]
  exact assign_append _ hlen' y
 have hownNew : ∀ v, assign (assign ((splitOp f.code r b i op).copyEnv env')
   (op.defs.map .original) results) ((r.met x).map (.param x)) added (.original v) =
   assign env op.defs results v := by
  intro v
  rw [assign_of_notMem]
  · exact hown v
  grind
 refine ⟨fun v => ?_, fun v hv => ?_⟩
 · rw [hsplit]
   exact assign_original hownNew _ _ v
 · rcases h.name_of_jump hc hb hop hx hv with
    ⟨hp, hname⟩ | ⟨hlive, hp, hheldv, hend, ⟨hm, hname⟩ | ⟨hm, hname⟩⟩
   · grind [assign_original]
   · -- a value that meets there: its name at the end of the block is passed
     obtain ⟨hvbr, hsucc⟩ := hmet v hm
     have hdefs : op.defs = [] := (f.vbr_args b op hopmem hvbr).1
     have hadd : added = (r.met x).map fun w =>
       (splitOp f.code r b i op).copyEnv env' (r.endName w b) := by
      rw [hadded, argsAt_vbr hop hvbr hsucc, map_map]
      rfl
     rw [hname, hsplit, assign_of_notMem, hadd, assign_map _ (r.met x) (Name.param x) _ _ hm]
     · grind [assign_of_notMem]
     · grind
     grind
   · -- a live value keeps the name the branch saw
     have hval := nameAt_value (r := r) v b (point i)
     rw [hname, hsplit, assign_of_notMem, assign_of_notMem, assign_of_notMem _ _ hp]
     · exact hheld v hheldv
     · intro hmem
       obtain ⟨w, hw, heq⟩ := mem_map.1 hmem
       rw [← heq] at hval
       have hwv : w = v := hval
       exact hm (hwv ▸ hw)
     · intro hmem
       obtain ⟨w, hw, heq⟩ := mem_map.1 hmem
       rw [← heq] at hval
       have hwv : w = v := hval
       exact hp (hwv ▸ hw)

end

/-! ## Executions -/

/-- The same operation has read the same operands; after the split it may read more. -/
def Event.Matches (e e' : Code.Event f.cfg.size Val) : Prop :=
 e.block = e'.block ∧ e.index = e'.index ∧ e.values <+: e'.values

/-- Along every path, under every interpretation of the operations, each operation reads the
same values in the two codes. -/
def SameReads (f : MachineFunction B) (code : Code f.cfg.size (Name f.cfg.size)) : Prop :=
 ∀ (Val S : Type) (interp : Fin f.cfg.size → Nat → S → List Val → S × List Val)
  (env₀ : Name f.cfg.size → Val) (σ₀ : S) (b : Fin f.cfg.size) (i : Nat) (σ : S),
  (∀ env log, f.code.Runs f.cfg.entry interp (fun v => env₀ (.original v)) σ₀ b i env σ log →
   ∃ env' log', code.Runs f.cfg.entry interp env₀ σ₀ b i env' σ log' ∧
    Forall₂ Event.Matches log log') ∧
  ∀ env' log', code.Runs f.cfg.entry interp env₀ σ₀ b i env' σ log' →
   ∃ env log, f.code.Runs f.cfg.entry interp (fun v => env₀ (.original v)) σ₀ b i env σ log ∧
    Forall₂ Event.Matches log log'

theorem MachineFunction.copyEnv_eq (f : MachineFunction B) {b : Fin f.cfg.size} {i : Nat}
  {op : Instr f.cfg.size Nat} (hop : (f.code.ops b)[i]? = some op) (env : Nat → Val) :
  op.copyEnv env = env := by
 funext v
 have hcopied : v ∉ op.copied := by
  rw [(f.defined_eq hop).1]
  exact not_mem_nil
 exact assign_of_notMem env _ hcopied

section

variable {b : Fin f.cfg.size} {i : Nat} {env : Nat → Val} {env' : Name f.cfg.size → Val} {op : Instr f.cfg.size Nat}

section

variable (h : SplitInput f r) (ha : Agree r b i env env') (hb : Reachable (Edge f.cfg.edges) f.cfg.entry b)
  (hop : (f.code.ops b)[i]? = some op)

include h ha hb hop

/-- The split operation takes the operands the old one took. -/
theorem Agree.uses : (splitOp f.code r b i op).uses.map ((splitOp f.code r b i op).copyEnv env') =
   op.uses.map (op.copyEnv env) := by
 rw [f.copyEnv_eq hop]
 exact ha.reads h hb hop (subset_append_left _ _)

/-- What the split operation reads begins with what the old one read. -/
theorem Agree.event : Event.Matches (⟨b, i, op.reads.map (op.copyEnv env)⟩ : Code.Event f.cfg.size Val)
   ⟨b, i, (splitOp f.code r b i op).reads.map ((splitOp f.code r b i op).copyEnv env')⟩ := by
 refine ⟨rfl, rfl, (argsAt f.code r b i).map ((splitOp f.code r b i op).copyEnv env'), ?_⟩
 rw [f.copyEnv_eq hop, ← ha.reads h hb hop (Subset.refl _), ← map_append]
 simp [Instr.reads, splitOp]

end

end

namespace SplitInput

variable {interp : Fin f.cfg.size → Nat → S → List Val → S × List Val} {env₀ : Name f.cfg.size → Val} {σ₀ : S}

theorem agree_entry (h : SplitInput f r) (env₀ : Name f.cfg.size → Val) :
  Agree r f.cfg.entry 0 (fun v => env₀ (.original v)) env₀ := by
 refine ⟨fun _ => rfl, fun v hv => ?_⟩
 rw [(h.name_of_entry hv).2]

variable {b : Fin f.cfg.size}

variable (h : SplitInput f r) (hc : CopiedBeforeBranches f r.sites)

include h hc

/-- The new code runs along every path of the old code, in agreement with it. -/
theorem runs_of_runs {i : Nat} {env : Nat → Val} {σ : S} {log : List (Code.Event f.cfg.size Val)}
  (hr : f.code.Runs f.cfg.entry interp (fun v => env₀ (.original v)) σ₀ b i env σ log) :
  Reachable (Edge f.cfg.edges) f.cfg.entry b ∧
   ∃ env' log', (splitCode f.code r).Runs f.cfg.entry interp env₀ σ₀ b i env' σ log' ∧
    Agree r b i env env' ∧ Forall₂ Event.Matches log log' := by
 induction hr with
 | entry => exact ⟨Reachable.root, env₀, [], Code.Runs.entry, h.agree_entry env₀, .nil⟩
 | @next b i env σ log op _ hop hv ih =>
  obtain ⟨hb, env', log', hrun, ha, hlog⟩ := ih
  have hstep := hrun.next (splitCode_op.2 ⟨op, hop, rfl⟩) hv
  have hagree := ha.step h hb hop (interp b i σ (op.uses.map env)).2
  rw [ha.uses h hb hop] at hstep
  rw [← f.copyEnv_eq hop env] at hagree
  exact ⟨hb, _, _, hstep, hagree, rel_append hlog (.cons (ha.event h hb hop) .nil)⟩
 | @jump b x i env σ log op _ hop hx ih =>
  obtain ⟨hb, env', log', hrun, ha, hlog⟩ := ih
  have hedge : x ∈ f.cfg.edges b := (f.edges_iff b x).2 ⟨op, mem_of_getElem? hop, hx⟩
  have hstep := hrun.jump (splitCode_op.2 ⟨op, hop, rfl⟩) hx
  have hagree := ha.jump h hc hb hop hx (interp b i σ (op.uses.map env)).2
  rw [ha.uses h hb hop] at hstep
  rw [← f.copyEnv_eq hop env] at hagree
  exact ⟨hb.step hedge, _, _, hstep, hagree,
   rel_append hlog (.cons (ha.event h hb hop) .nil)⟩

/-- The old code runs along every path of the new code, in agreement with it. -/
theorem runs_of_split_runs {i : Nat} {env' : Name f.cfg.size → Val} {σ : S} {log' : List (Code.Event f.cfg.size Val)}
  (hr : (splitCode f.code r).Runs f.cfg.entry interp env₀ σ₀ b i env' σ log') :
  Reachable (Edge f.cfg.edges) f.cfg.entry b ∧
   ∃ env log, f.code.Runs f.cfg.entry interp (fun v => env₀ (.original v)) σ₀ b i env σ log ∧
    Agree r b i env env' ∧ Forall₂ Event.Matches log log' := by
 induction hr with
 | entry => exact ⟨Reachable.root, _, [], Code.Runs.entry, h.agree_entry env₀, .nil⟩
 | @next b i env' σ log' op' _ hop' hv ih =>
  obtain ⟨hb, env, log, hrun, ha, hlog⟩ := ih
  obtain ⟨op, hop, rfl⟩ := splitCode_op.1 hop'
  have hstep := hrun.next hop hv
  have hagree := ha.step h hb hop (interp b i σ (op.uses.map env)).2
  rw [ha.uses h hb hop]
  rw [← f.copyEnv_eq hop env] at hagree
  exact ⟨hb, _, _, hstep, hagree, rel_append hlog (.cons (ha.event h hb hop) .nil)⟩
 | @jump b x i env' σ log' op' _ hop' hx ih =>
  obtain ⟨hb, env, log, hrun, ha, hlog⟩ := ih
  obtain ⟨op, hop, rfl⟩ := splitCode_op.1 hop'
  have hedge : x ∈ f.cfg.edges b := (f.edges_iff b x).2 ⟨op, mem_of_getElem? hop, hx⟩
  have hstep := hrun.jump hop hx
  have hagree := ha.jump h hc hb hop hx (interp b i σ (op.uses.map env)).2
  rw [ha.uses h hb hop]
  rw [← f.copyEnv_eq hop env] at hagree
  exact ⟨hb.step hedge, _, _, hstep, hagree,
   rel_append hlog (.cons (ha.event h hb hop) .nil)⟩

/-- **Every operation reads what it read before the split.** -/
theorem sameReads :
  SameReads f (splitCode f.code r) := by
 intro Val S interp env₀ σ₀ b i σ
 constructor
 · intro env log hr
   obtain ⟨-, env', log', hrun, -, hlog⟩ := h.runs_of_runs hc hr
   exact ⟨env', log', hrun, hlog⟩
 · intro env' log' hr
   obtain ⟨-, env, log, hrun, -, hlog⟩ := h.runs_of_split_runs hc hr
   exact ⟨env, log, hrun, hlog⟩

end SplitInput

end Tir.RegAlloc
