import Mathlib.Data.Finset.Card
import Mathlib.Data.List.DropRight
import Mathlib.Data.Multiset.DershowitzManna

/-!
# Macro expansion

`expand_tokens` of the C preprocessor over a queue of tokens with hidesets. Replacing a macro takes a name out of
reach of every token it pushes back, so the queue decreases in the multiset order (`expandTokens_returns`).
-/

open List Option

namespace Tir.Fcc

/-! ## Tokens -/

/-- A token of the lexer. Those that the preprocessor does not tell apart keep their text alone. -/
inductive Token where
 | whitespace (text : String)
 | comment (text : String)
 | stringLiteral (text : String)
 | hashHash
 | lParen
 | rParen
 | comma
 | other (text : String)
deriving DecidableEq

/-- The text of a token, as it is printed. -/
def Token.display : Token → String
 | whitespace text | comment text | other text => text
 | stringLiteral text => "\"" ++ text ++ "\""
 | hashHash => "##"
 | lParen => "("
 | rParen => ")"
 | comma => ","

structure Span where
 file : Nat
 offset : Nat
deriving DecidableEq

structure ExpansionToken where
 token : Token
 span : Span
 hideset : Finset String
deriving DecidableEq

inductive MacroDefinition where
 | object (replacement : List Token)
 | function (parameters : List String) (replacement : List Token)

abbrev Defines := List (String × MacroDefinition)

def isWhitespace : Token → Bool
 | .whitespace _ | .comment _ => true
 | _ => false

/-- The name that a token spells. White space, comments and punctuation never spell one, and a string literal
is left out though its spelling has no quotes. -/
def macroIdentifier : Token → Option String
 | .other text => match text.toList with
   | c :: rest => if (c == '_' || c.isAlpha) && rest.all fun c => c == '_' || c.isAlphanum then some text else none
   | [] => none
 | _ => none

def trimArgument (argument : List ExpansionToken) : List ExpansionToken :=
 (argument.dropWhile (isWhitespace ·.token)).rdropWhile (isWhitespace ·.token)

/-! ## Pasting -/

inductive PasteToken where
 | token (token : ExpansionToken)
 | placemarker

def PasteToken.isSpace : PasteToken → Bool
 | token t => isWhitespace t.token
 | placemarker => false

def PasteToken.operator : PasteToken → Option ExpansionToken
 | token t => if t.token = .hashHash then some t else none
 | placemarker => none

def PasteToken.emitted : PasteToken → Option ExpansionToken
 | token t => some t
 | placemarker => none

/-- The loop of `paste_tokens`: the output, last first, and the left operand and operator while the right operand
is looked for. -/
structure PasteState where
 output : List PasteToken
 held : Option (PasteToken × ExpansionToken)

section

variable (lex : String → List (Option Token))

/-- One token in place of two, or the two with the operator between them. -/
def pastePair (operator left right : ExpansionToken) : List ExpansionToken :=
 match lex (left.token.display ++ right.token.display) with
 | [some token] => [⟨token, left.span, left.hideset ∪ right.hideset⟩]
 | _ => [left, operator, right]

def glue (operator : ExpansionToken) : PasteToken → PasteToken → List PasteToken
 | .placemarker, right => [right]
 | left, .placemarker => [left]
 | .token left, .token right => (pastePair lex operator left right).map .token

def pasteStep (s : PasteState) (next : PasteToken) : PasteState :=
 match s.held with
 | some (left, operator) => if next.isSpace then s else ⟨(glue lex operator left next).reverse ++ s.output, none⟩
 | none => match next.operator with
   | none => ⟨next :: s.output, none⟩
   | some operator => match s.output.dropWhile PasteToken.isSpace with
     | [] => ⟨[next], none⟩
     | left :: output => ⟨output, some (left, operator)⟩

/-- The output, with an operator that found no right operand; placemarkers go. -/
def PasteState.finish (s : PasteState) : List ExpansionToken :=
 let output := match s.held with
  | some (left, operator) => PasteToken.token operator :: left :: s.output
  | none => s.output
 output.reverse.filterMap PasteToken.emitted

def pasteTokens (tokens : List PasteToken) : List ExpansionToken :=
 (tokens.foldl (pasteStep lex) ⟨[], none⟩).finish

/-! ## Substitution -/

/-- Whether a place of a list is next to a `##`, white space aside: the tokens before it, last first, and those
after it. -/
def adjacentToPaste (before after : List Token) : Bool :=
 (before.find? (!isWhitespace ·)).any (· == .hashHash) || (after.find? (!isWhitespace ·)).any (· == .hashHash)

variable (parameters : List String) (arguments expanded : List (List ExpansionToken)) (span : Span)

def substituteToken (before : List Token) (token : Token) (after : List Token) : List PasteToken :=
 match (macroIdentifier token).bind (parameters.idxOf? ·) with
 | some index =>
   let argument := arguments.getD index []
   if adjacentToPaste before after then if argument.isEmpty then [.placemarker] else argument.map .token
   else (expanded.getD index []).map .token
 | none => [.token ⟨token, span, ∅⟩]

def substituteFrom (before : List Token) : List Token → List PasteToken
 | [] => []
 | token :: after =>
   substituteToken parameters arguments expanded span before token after ++ substituteFrom (token :: before) after

/-- `substitute_arguments` with the trimmed arguments and their expansions. -/
def substituteArguments (replacement : List Token) : List ExpansionToken :=
 pasteTokens lex (substituteFrom parameters arguments expanded span [] replacement)

end

/-! ## Expansion -/

/-- The arguments up to the closing parenthesis, and the tokens behind it. -/
def takeArguments (depth : Nat) (arguments : List (List ExpansionToken)) (last : List ExpansionToken) :
  List ExpansionToken → Option (List (List ExpansionToken) × List ExpansionToken)
 | [] => none
 | token :: input => match token.token with
   | .lParen => takeArguments (depth + 1) arguments (last ++ [token]) input
   | .rParen =>
     if depth = 0 then some (arguments ++ [last], input)
     else takeArguments (depth - 1) arguments (last ++ [token]) input
   | .comma =>
     if depth = 0 then takeArguments depth (arguments ++ [last]) [] input
     else takeArguments depth arguments (last ++ [token]) input
   | _ => takeArguments depth arguments (last ++ [token]) input

/-- Where there is no invocation, all that was taken is put back. -/
def takeInvocation (parameters : List String) (input : List ExpansionToken) :
  Option (List (List ExpansionToken) × List ExpansionToken) :=
 match input.dropWhile (isWhitespace ·.token) with
 | opening :: input =>
   if opening.token = .lParen then do
    let (arguments, input) ← takeArguments 0 [] [] input
    let arguments := if parameters = [] ∧ arguments.length = 1 ∧ trimArgument (arguments.headD []) = [] then []
     else arguments
    if arguments.length = parameters.length then some (arguments, input) else none
   else none
 | [] => none

/-- The arguments of a macro and the tokens behind them. -/
def MacroDefinition.invocation (input : List ExpansionToken) :
  MacroDefinition → Option (List (List ExpansionToken) × List ExpansionToken)
 | object _ => some ([], input)
 | function parameters _ => takeInvocation parameters input

def MacroDefinition.replace (lex : String → List (Option Token)) (token : ExpansionToken)
  (arguments expanded : List (List ExpansionToken)) : MacroDefinition → List ExpansionToken
 | object replacement => replacement.map (⟨·, token.span, token.hideset⟩)
 | function parameters replacement => substituteArguments lex parameters arguments expanded token.span replacement

/-- A macro that a token names and does not hide. -/
def macroOf (defines : Defines) (token : ExpansionToken) : Option (String × MacroDefinition) := do
 let name ← macroIdentifier token.token
 let definition ← defines.lookup name
 if name ∈ token.hideset then none else some (name, definition)

/-- The macro that a token in front of an input invokes, its arguments and the tokens behind them. -/
def invocationOf (defines : Defines) (token : ExpansionToken) (input : List ExpansionToken) :
  Option ((String × MacroDefinition) × List (List ExpansionToken) × List ExpansionToken) := do
 let named ← macroOf defines token
 some (named, ← named.2.invocation input)

def hide (hideset : Finset String) (token : ExpansionToken) : ExpansionToken :=
 { token with hideset := token.hideset ∪ hideset }

/-- `expand_tokens`, which takes the results of `next_expanded` one by one. An argument is expanded here once, and
in the source wherever the list names it. -/
def expandTokens (lex : String → List (Option Token)) (defines : Defines) :
  Nat → List ExpansionToken → Option (List ExpansionToken)
 | 0, _ => none
 | _ + 1, [] => some []
 | fuel + 1, token :: input =>
   match invocationOf defines token input with
   | none => (expandTokens lex defines fuel input).map (token :: ·)
   | some ((name, definition), arguments, rest) => do
     let arguments := arguments.map trimArgument
     let expanded ← arguments.mapM (expandTokens lex defines fuel)
     let replacement := definition.replace lex token arguments expanded
     expandTokens lex defines fuel (replacement.map (hide (insert name token.hideset)) ++ rest)

/-! ## Runs -/

section

variable {lex : String → List (Option Token)} {defines : Defines}

/-- The tokens of the text that are marked so. -/
def own (tokens : List (ExpansionToken × Bool)) : List ExpansionToken :=
 (tokens.filter Prod.snd).map Prod.fst

/-- Expansion returns a result with all fuel from some bound on. -/
def Returns (lex : String → List (Option Token)) (defines : Defines) (input result : List ExpansionToken) : Prop :=
 ∃ bound, ∀ fuel ≥ bound, expandTokens lex defines fuel input = some result

/-- A run over marked tokens: its result, and the tokens of the text that completed invocations took. What a macro
pushes back is not marked. -/
inductive Run (lex : String → List (Option Token)) (defines : Defines) : List (ExpansionToken × Bool) →
  List (ExpansionToken × Bool) → List ExpansionToken → Prop
 | done : Run lex defines [] [] []
 | stays {t input result taken} (h : invocationOf defines t.1 (input.map Prod.fst) = none) (hrest : Run lex defines input result taken) :
  Run lex defines (t :: input) (t :: result) taken
 | replaced {t invoked rest result taken name definition arguments expanded}
  (h : invocationOf defines t.1 ((invoked ++ rest).map Prod.fst) = some ((name, definition), arguments, rest.map Prod.fst))
  (hexpanded : Forall₂ (Returns lex defines) (arguments.map trimArgument) expanded)
  (hrest : Run lex defines ((definition.replace lex t.1 (arguments.map trimArgument) expanded).map
   (fun r => (hide (insert name t.1.hideset) r, false)) ++ rest) result taken) :
  Run lex defines (t :: (invoked ++ rest)) result (own (t :: invoked) ++ taken)

theorem own_append (tokens other : List (ExpansionToken × Bool)) : own (tokens ++ other) = own tokens ++ own other := by
 rw [own, filter_append, map_append, own, own]

theorem own_unmarked (f : ExpansionToken → ExpansionToken) (tokens : List ExpansionToken) :
  own (tokens.map fun r => (f r, false)) = [] := by
 simp [own]

theorem fst_marked (mark : Bool) (tokens : List ExpansionToken) : (tokens.map (·, mark)).map Prod.fst = tokens := by
 rw [List.map_map]
 exact map_id tokens

theorem own_text (text : List ExpansionToken) : own (text.map (·, true)) = text := by
 rw [own, filter_eq_self.2 (by simp), fst_marked]

/-- Each token of the text is in the result or was taken by an invocation. -/
theorem Run.perm {input result taken} (h : Run lex defines input result taken) :
  (own result ++ taken).Perm (own input) := by
 induction h with
 | done => rfl
 | @stays t input result taken _ _ ih =>
  rw [← singleton_append, own_append, ← singleton_append (l := input), own_append, append_assoc]
  exact ih.append_left _
 | @replaced t invoked rest result taken _ _ _ _ _ _ _ ih =>
  rw [own_append, own_unmarked, nil_append] at ih
  rw [← cons_append, own_append]
  exact (perm_append_comm_assoc _ _ _).trans (ih.append_left _)

theorem Run.sublist {input result taken} (h : Run lex defines input result taken) : (own result).Sublist (own input) := by
 induction h with
 | done => rfl
 | @stays t input result _ _ _ ih =>
  rw [← singleton_append, own_append, ← singleton_append (l := input), own_append]
  exact ih.append_left _
 | @replaced t invoked rest _ _ _ _ _ _ _ _ _ ih =>
  rw [own_append, own_unmarked, nil_append] at ih
  rw [← cons_append, own_append]
  exact ih.trans (sublist_append_right _ _)

/-- A token of the result stays in front of an input that the rest of the result comes from. -/
theorem Run.stays_of_mem {input result taken before t after} (h : Run lex defines input result taken)
  (hresult : result = before ++ t :: after) :
  ∃ following taken', invocationOf defines t.1 (following.map Prod.fst) = none ∧ Run lex defines following after taken' := by
 induction h generalizing before with
 | done => simp at hresult
 | @stays u input result taken hstays hrest ih =>
  cases before with
  | nil =>
   cases hresult
   exact ⟨input, taken, hstays, hrest⟩
  | cons b before =>
   cases hresult
   exact ih rfl
 | replaced _ _ _ ih => exact ih hresult

/-! ## Fuel -/

theorem mapM_returns {arguments expanded : List (List ExpansionToken)}
  (h : Forall₂ (Returns lex defines) arguments expanded) :
  ∃ bound, ∀ fuel ≥ bound, arguments.mapM (expandTokens lex defines fuel) = some expanded := by
 induction h with
 | nil => exact ⟨0, fun _ _ => rfl⟩
 | cons h _ ih =>
  obtain ⟨bound, hbound⟩ := h
  obtain ⟨bound', hbound'⟩ := ih
  refine ⟨max bound bound', fun fuel hle => ?_⟩
  rw [mapM_cons, hbound fuel (le_of_max_le_left hle), hbound' fuel (le_of_max_le_right hle)]
  rfl

theorem Run.returns {input result taken} (h : Run lex defines input result taken) :
  Returns lex defines (input.map Prod.fst) (result.map Prod.fst) := by
 induction h with
 | done =>
  refine ⟨1, fun fuel hle => ?_⟩
  obtain ⟨fuel, rfl⟩ := Nat.exists_eq_succ_of_ne_zero (Nat.one_le_iff_ne_zero.1 hle)
  rfl
 | @stays t input result taken hstays _ ih =>
  obtain ⟨bound, hbound⟩ := ih
  refine ⟨bound + 1, fun fuel hle => ?_⟩
  obtain ⟨fuel, rfl⟩ := Nat.exists_eq_add_of_le' hle
  rw [map_cons, ← Nat.add_assoc, expandTokens, hstays]
  exact map_eq_some_iff.2 ⟨_, hbound _ (Nat.le_add_left _ _), rfl⟩
 | @replaced t invoked rest result taken name definition arguments expanded hinvoked hexpanded _ ih =>
  obtain ⟨bound, hbound⟩ := mapM_returns hexpanded
  obtain ⟨bound', hbound'⟩ := ih
  rw [map_append, List.map_map] at hbound'
  refine ⟨max bound bound' + 1, fun fuel hle => ?_⟩
  obtain ⟨fuel, rfl⟩ := Nat.exists_eq_add_of_le' hle
  have hmax := Nat.le_add_left (max bound bound') fuel
  rw [map_cons, ← Nat.add_assoc, expandTokens, hinvoked]
  exact bind_eq_some_iff.2 ⟨expanded, hbound _ (le_of_max_le_left hmax), hbound' _ (le_of_max_le_right hmax)⟩

/-! ## The order on queues -/

/-- How many macros a token does not hide. -/
def weight (defines : Defines) (token : ExpansionToken) : Nat :=
 ((defines.map Prod.fst).toFinset \ token.hideset).card

def weights (defines : Defines) (tokens : List ExpansionToken) : Multiset Nat :=
 tokens.map (weight defines)

theorem mem_of_lookup {name : String} {definition} (h : defines.lookup name = some definition) :
  name ∈ defines.map Prod.fst := by
 induction defines with
 | nil => cases h
 | cons d defines ih =>
  rw [lookup_cons] at h
  grind

theorem weight_hide_lt {token : ExpansionToken} {name definition} (h : macroOf defines token = some (name, definition))
  (r : ExpansionToken) : weight defines (hide (insert name token.hideset) r) < weight defines token := by
 obtain ⟨name', _, h⟩ := bind_eq_some_iff.1 h
 obtain ⟨definition', hlookup, h⟩ := bind_eq_some_iff.1 h
 split at h
 next => cases h
 next hhidden =>
  cases h
  apply Finset.card_lt_card
  refine Finset.ssubset_iff_subset_ne.2 ⟨fun n hn => ?_, fun heq => ?_⟩
  · simp only [hide, Finset.mem_sdiff, Finset.mem_union, Finset.mem_insert] at hn ⊢
    tauto
  · have hmem : name ∈ (defines.map Prod.fst).toFinset \ token.hideset :=
     Finset.mem_sdiff.2 ⟨List.mem_toFinset.2 (mem_of_lookup hlookup), hhidden⟩
    rw [← heq] at hmem
    simp [hide] at hmem

theorem weights_lt {t : ExpansionToken} {pushed invoked rest : List ExpansionToken}
  (h : ∀ r ∈ pushed, weight defines r < weight defines t) :
  (weights defines (pushed ++ rest)).IsDershowitzMannaLT (weights defines (t :: (invoked ++ rest))) := by
 refine ⟨weights defines rest, weights defines pushed, weights defines (t :: invoked), ?_, ?_, ?_, ?_⟩
 · simp [weights]
 · rw [weights, map_append, ← Multiset.coe_add, add_comm, weights, weights]
 · rw [weights, ← cons_append, map_append, ← Multiset.coe_add, add_comm, weights, weights]
 · intro n hn
   obtain ⟨r, hr, rfl⟩ := mem_map.1 (Multiset.mem_coe.1 hn)
   exact ⟨_, Multiset.mem_coe.2 mem_cons_self, h r hr⟩

theorem weights_sublist_lt {t : ExpansionToken} {argument input : List ExpansionToken} (h : argument.Sublist input) :
  (weights defines argument).IsDershowitzMannaLT (weights defines (t :: input)) := by
 obtain ⟨others, hperm⟩ := h.exists_perm_append
 have hweights : weights defines (t :: (others ++ argument)) = weights defines (t :: input) :=
  Multiset.coe_eq_coe.2 (((perm_append_comm.trans hperm.symm).cons t).map _)
 rw [← hweights]
 exact @weights_lt defines t [] others argument nofun

/-! ## Invocations -/

theorem takeArguments_eq {depth : Nat} {arguments out : List (List ExpansionToken)} {last input rest : List ExpansionToken}
  (h : takeArguments depth arguments last input = some (out, rest)) :
  ∃ invoked, input = invoked ++ rest ∧ ∀ a ∈ out, a ∈ arguments ∨ a.Sublist (last ++ invoked) := by
 induction input generalizing depth arguments last with
 | nil => cases h
 | cons token input ih =>
  -- A token joins the last argument, or closes it.
  have hjoins : ∀ d, takeArguments d arguments (last ++ [token]) input = some (out, rest) →
    ∃ invoked, token :: input = invoked ++ rest ∧ ∀ a ∈ out, a ∈ arguments ∨ a.Sublist (last ++ invoked) := by
   intro d hd
   obtain ⟨invoked, rfl, hout⟩ := ih hd
   refine ⟨token :: invoked, rfl, fun a ha => (hout a ha).imp_right fun hsub => ?_⟩
   rwa [append_assoc, singleton_append] at hsub
  rw [takeArguments] at h
  split at h
  · exact hjoins _ h
  · split at h
    · cases h
      refine ⟨[token], rfl, fun a ha => (mem_append.1 ha).imp_right fun hlast => ?_⟩
      rw [mem_singleton.1 hlast]
      exact sublist_append_left _ _
    · exact hjoins _ h
  · split at h
    · obtain ⟨invoked, rfl, hout⟩ := ih h
      refine ⟨token :: invoked, rfl, fun a ha => ?_⟩
      rcases hout a ha with hdone | hsub
      · refine (mem_append.1 hdone).imp_right fun hlast => ?_
        rw [mem_singleton.1 hlast]
        exact sublist_append_left _ _
      · exact .inr ((hsub.trans (sublist_cons_self _ _)).trans (sublist_append_right _ _))
    · exact hjoins _ h
  · exact hjoins _ h

theorem invocation_eq {definition : MacroDefinition} {input rest arguments}
  (h : definition.invocation input = some (arguments, rest)) :
  ∃ invoked, input = invoked ++ rest ∧ ∀ a ∈ arguments, a.Sublist input := by
 cases definition with
 | object _ =>
  cases h
  exact ⟨[], rfl, nofun⟩
 | function parameters _ =>
  rw [MacroDefinition.invocation, takeInvocation] at h
  have hspace := takeWhile_append_dropWhile (p := (isWhitespace ·.token)) (l := input)
  generalize input.dropWhile _ = dropped at h hspace
  generalize input.takeWhile _ = space at hspace
  subst hspace
  cases dropped with
  | nil => cases h
  | cons opening tokens =>
   dsimp only at h
   split at h
   next =>
    obtain ⟨⟨taken, behind⟩, htaken, hcount⟩ := bind_eq_some_iff.1 h
    obtain ⟨invoked, rfl, hsub⟩ := takeArguments_eq htaken
    obtain ⟨-, hcount⟩ := ite_none_right_eq_some.1 hcount
    cases hcount
    refine ⟨space ++ opening :: invoked, by simp, fun a ha => ?_⟩
    split at ha
    · cases ha
    · have hin := (hsub a ha).resolve_left not_mem_nil
      exact ((hin.trans (sublist_append_left _ behind)).trans (sublist_cons_self _ _)).trans (sublist_append_right _ _)
   next => cases h

theorem trimArgument_sublist (argument : List ExpansionToken) : (trimArgument argument).Sublist argument := by
 have htrim := rdropWhile_prefix (isWhitespace ·.token) (argument.dropWhile (isWhitespace ·.token))
 exact htrim.sublist.trans (dropWhile_sublist _)

/-! ## Termination -/

theorem exists_run (input : List (ExpansionToken × Bool)) : ∃ result taken, Run lex defines input result taken := by
 induction input using (InvImage.wf (fun i : List (ExpansionToken × Bool) => weights defines (i.map Prod.fst))
  Multiset.wellFounded_isDershowitzMannaLT).induction with
 | _ input ih =>
 cases input with
 | nil => exact ⟨[], [], .done⟩
 | cons t input =>
  cases hinvoked : invocationOf defines t.1 (input.map Prod.fst) with
  | none =>
    obtain ⟨result, taken, hrun⟩ := ih input (weights_sublist_lt (Sublist.refl _))
    exact ⟨_, _, .stays hinvoked hrun⟩
  | some invocation =>
    obtain ⟨⟨name, definition⟩, arguments, behind⟩ := invocation
    obtain ⟨named, hmacro, hinvocation⟩ := bind_eq_some_iff.1 hinvoked
    obtain ⟨called, hinvocation, hcalled⟩ := bind_eq_some_iff.1 hinvocation
    cases hcalled
    obtain ⟨invoked, hsplit, hsub⟩ := invocation_eq hinvocation
    obtain ⟨invoked, rest, rfl, rfl, rfl⟩ := map_eq_append_iff.1 hsplit
    -- The arguments are lighter: the name of the macro is none of their tokens.
    have hexpands : ∀ a ∈ arguments.map trimArgument, ∃ r, Returns lex defines a r := by
     intro a ha
     obtain ⟨b, hb, rfl⟩ := mem_map.1 ha
     have hfst := fst_marked false (trimArgument b)
     obtain ⟨result, taken, hrun⟩ := ih ((trimArgument b).map (·, false)) (by
      rw [InvImage, hfst]
      exact weights_sublist_lt ((trimArgument_sublist b).trans (hsub b hb)))
     exact ⟨_, hfst ▸ hrun.returns⟩
    choose! expand hexpand using hexpands
    have hexpanded := forall₂_map_right_iff.2 (forall₂_same.2 hexpand)
    generalize hpushed : (definition.replace lex t.1 (arguments.map trimArgument) ((arguments.map trimArgument).map expand)).map
     (fun r => (hide (insert name t.1.hideset) r, false)) = pushed
    obtain ⟨result, taken, hrun⟩ := ih (pushed ++ rest) (by
     rw [InvImage, map_append, map_cons, map_append]
     apply weights_lt
     intro r hr
     rw [← hpushed, List.map_map] at hr
     obtain ⟨r, _, rfl⟩ := mem_map.1 hr
     exact weight_hide_lt hmacro r)
    exact ⟨_, _, .replaced hinvoked hexpanded (hpushed ▸ hrun)⟩

/-- Expansion returns on every text. A token of the result stays in front of the input that the rest of the result
comes from, and the tokens of the text are in the result in their order, or in completed invocations. -/
theorem expandTokens_returns (lex : String → List (Option Token)) (defines : Defines) (text : List ExpansionToken) :
  ∃ result taken, Run lex defines (text.map (·, true)) result taken ∧ Returns lex defines text (result.map Prod.fst) ∧
   (∀ before t after, result = before ++ t :: after →
    ∃ following, invocationOf defines t.1 following = none ∧ Returns lex defines following (after.map Prod.fst)) ∧
   (own result).Sublist text ∧ (own result ++ taken).Perm text := by
 obtain ⟨result, taken, hrun⟩ := @exists_run lex defines (text.map (·, true))
 refine ⟨result, taken, hrun, fst_marked true text ▸ hrun.returns, fun before t after hsplit => ?_, ?_, ?_⟩
 · obtain ⟨following, taken', hstays, hfollows⟩ := hrun.stays_of_mem hsplit
   exact ⟨_, hstays, hfollows.returns⟩
 · exact own_text text ▸ hrun.sublist
 · exact own_text text ▸ hrun.perm

end

/-- `f` takes an argument and `L` is a parenthesis. -/
def openDefines : Defines := [("f", .function ["x"] [.other "x"]), ("L", .object [.lParen])]

def openText : List ExpansionToken :=
 [.other "f", .other "L", .other "1", .rParen].map fun token => ⟨token, ⟨0, 0⟩, ∅⟩

/-- The parenthesis comes out of `L` when `f` is out already, so the result has an invocation of `f`. -/
theorem invocation_in_result : ∃ t after, Returns (fun _ => []) openDefines openText (t :: after) ∧
  (invocationOf openDefines t after).isSome := by
 refine ⟨⟨.other "f", ⟨0, 0⟩, ∅⟩, [⟨.lParen, ⟨0, 0⟩, {"L"}⟩, ⟨.other "1", ⟨0, 0⟩, ∅⟩, ⟨.rParen, ⟨0, 0⟩, ∅⟩],
  ⟨6, fun fuel hle => ?_⟩, by decide⟩
 obtain ⟨fuel, rfl⟩ := Nat.exists_eq_add_of_le' hle
 rfl

end Tir.Fcc
