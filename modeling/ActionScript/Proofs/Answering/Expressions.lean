import ActionScript.Proofs.Explained
import ActionScript.Proofs.Slots

/-!
# Nodes of expressions can answer

Of every routine of the grammar it is said what it adds to the open node (`flow_…`) and that the
nodes which it makes can answer (`checks_…`), if nothing is reported.  Here are the common pieces,
types, signatures and expressions.
-/

set_option autoImplicit false

namespace ActionScript

/-! ## The common pieces -/

namespace Parser

variable {ps : List Part}

section
variable {Q : Kind → List Part → Prop}

@[simp] theorem flow_peek : peek.Flow ps Q ↔ ∀ kind, Q kind ps :=
  ⟨fun h kind => h ⟨kind, [], false⟩, fun h g => h g.kind⟩

end

section
variable {Q : Bool → List Part → Prop}

@[simp] theorem flow_seesIn (mode : Mode) (kind : Kind) :
    (seesIn mode kind).Flow ps Q ↔ Q true ps ∧ Q false ps := by
  have hother : ∃ other, other ≠ kind := by
    by_cases h : kind = .eof
    · exact ⟨.name, h ▸ by decide⟩
    · exact ⟨.eof, Ne.symm h⟩
  obtain ⟨other, hne⟩ := hother
  constructor
  · intro h
    have hsame := h ⟨kind, [], false⟩
    have hdiffer := h ⟨other, [], false⟩
    simp only [flow_pure, beq_self_eq_true, beq_false_of_ne hne] at hsame hdiffer
    exact ⟨hsame, hdiffer⟩
  · rintro ⟨htrue, hfalse⟩ g
    change Q (g.kind == kind) ps
    cases g.kind == kind with
    | true => exact htrue
    | false => exact hfalse

@[simp] theorem flow_sees (kind : Kind) : (sees kind).Flow ps Q ↔ Q true ps ∧ Q false ps :=
  flow_seesIn .operator kind

@[simp] theorem flow_seesWord (word : String) :
    (seesWord word).Flow ps Q ↔ Q true ps ∧ Q false ps := by
  constructor
  · intro h
    have hsame := h ⟨.name, word.toList, false⟩
    have hword : (⟨.name, word.toList, false⟩ : Glimpse).isWord word = true := by
      simp [Glimpse.isWord]
    change Q (Glimpse.isWord _ word) ps at hsame
    exact ⟨hword ▸ hsame, h ⟨.eof, [], false⟩⟩
  · rintro ⟨htrue, hfalse⟩ g
    change Q (g.isWord word) ps
    cases g.isWord word with
    | true => exact htrue
    | false => exact hfalse

@[simp] theorem flow_eat (kind : Kind) :
    (eat kind).Flow ps Q ↔ Q true (.token none :: ps) ∧ Q false ps := by
  simp [eat]

theorem flow_eatWord (keyword : Kind) (htrue : Q true (.token none :: ps)) (hfalse : Q false ps) :
    (eatWord keyword).Flow ps Q := by
  simp [eatWord, htrue, hfalse]

@[simp] theorem flow_expectIn (mode : Mode) (kind : Kind) :
    (expectIn mode kind).Flow ps Q ↔ Q true (.token none :: ps) := by
  simp [expectIn, missing]

end

variable {Q : Unit → List Part → Prop}

@[simp] theorem flow_leaf (kind : Kind) :
    (leaf kind).Flow ps Q ↔ (kind ≠ .error → Q () (.node kind none :: ps)) := by simp [leaf]
@[simp] theorem flow_wordLeaf (keyword kind : Kind) :
    (wordLeaf keyword kind).Flow ps Q ↔ (kind ≠ .error → Q () (.node kind none :: ps)) := by
  simp [wordLeaf]
@[simp] theorem flow_missing (error : SyntaxError) : (missing error).Flow ps Q := by
  simp [missing]
@[simp] theorem flow_reject (error : SyntaxError) : (reject error).Flow ps Q := by
  simp [reject]
@[simp] theorem flow_rejectUnless (stops : KindSet) (error : SyntaxError) :
    (rejectUnless stops error).Flow ps Q := by simp [rejectUnless]
@[simp] theorem flow_expect (kind : Kind) :
    (expect kind).Flow ps Q ↔ Q () (.token none :: ps) := by simp [expect]
theorem flow_expectWord {keyword : Kind} (h : Q () (.token none :: ps)) :
    (expectWord keyword).Flow ps Q :=
  flow_eatWord keyword (by simpa using h) (by simp)
@[simp] theorem flow_callIn (field : Field) (rule : Rule) : (callIn field rule).Flow ps Q ↔
    ∀ kind, rule.role.admits kind = true → Q () (.node kind (some field) :: ps) := by
  simp [callIn]

@[simp] theorem checks_peek : peek.Checks ps := by simp [peek]
@[simp] theorem checks_sees (kind : Kind) : (sees kind).Checks ps := by simp [sees]
@[simp] theorem checks_seesIn (mode : Mode) (kind : Kind) : (seesIn mode kind).Checks ps := by
  simp [seesIn]
@[simp] theorem checks_seesWord (word : String) : (seesWord word).Checks ps := by simp [seesWord]
@[simp] theorem checks_leaf (kind : Kind) :
    (leaf kind).Checks ps ↔ (kind ≠ .error → Answers kind [.token none]) := by simp [leaf]
@[simp] theorem checks_wordLeaf (keyword kind : Kind) :
    (wordLeaf keyword kind).Checks ps ↔ (kind ≠ .error → Answers kind [.token none]) := by
  simp [wordLeaf]
@[simp] theorem checks_eat (kind : Kind) : (eat kind).Checks ps := by simp [eat]
@[simp] theorem checks_eatWord (keyword : Kind) : (eatWord keyword).Checks ps := by
  simp [eatWord]
@[simp] theorem checks_missing (error : SyntaxError) : (missing error).Checks ps := by
  simp [missing]
@[simp] theorem checks_reject (error : SyntaxError) : (reject error).Checks ps := by
  simp [reject]
@[simp] theorem checks_rejectUnless (stops : KindSet) (error : SyntaxError) :
    (rejectUnless stops error).Checks ps := by simp [rejectUnless]
@[simp] theorem checks_expectIn (mode : Mode) (kind : Kind) : (expectIn mode kind).Checks ps := by
  simp [expectIn]
@[simp] theorem checks_expect (kind : Kind) : (expect kind).Checks ps := by simp [expect]
@[simp] theorem checks_expectWord (keyword : Kind) : (expectWord keyword).Checks ps := by
  simp [expectWord]
@[simp] theorem checks_callIn (field : Field) (rule : Rule) : (callIn field rule).Checks ps := by
  simp [callIn]

theorem checks_of_onlyLooks {α : Type} {p : Parser α} (h : p.OnlyLooks) : p.Checks ps := by
  induction p generalizing ps with
  | andThen first next ihFirst ihNext =>
    exact ⟨ihFirst h.1, flow_of_forall (fun value _ => ihNext value (h.2 value)) _ _⟩
  | done value => trivial
  | ahead distance => trivial
  | _ => exact h.elim

/-- Behind a parser that only looks ahead the parts are what they were. -/
theorem flow_of_onlyLooks {α : Type} {p : Parser α} (h : p.OnlyLooks)
    {Q : α → List Part → Prop} (hq : ∀ value, Q value ps) : p.Flow ps Q := by
  induction p with
  | andThen first next ihFirst ihNext =>
    exact ihFirst h.1 fun value => ihNext value (h.2 value) hq
  | done value => exact hq value
  | ahead distance => exact fun g => hq g
  | _ => exact h.elim

end Parser

namespace Grammar

open ActionScript.Parser

variable {ps : List Part} {Q : Unit → List Part → Prop}

/-! ## Names, lists and types -/

@[simp] theorem flow_name (field : Field) (stops : List Kind) :
    (name field stops).Flow ps Q ↔ Q () (.node .ident (some field) :: ps) := by
  simp [name]

@[simp] theorem checks_name (field : Field) (stops : List Kind) :
    (name field stops).Checks ps := by
  simp (disch := decide) [name, Answers.of_required_nil]

@[simp] theorem flow_qualifiedName (field : Field) (wildcard : Bool) :
    (qualifiedName field wildcard).Flow ps Q ↔ Q () (.node .qualifiedName (some field) :: ps) := by
  simp [qualifiedName]

@[simp] theorem checks_qualifiedName (field : Field) (wildcard : Bool) :
    (qualifiedName field wildcard).Checks ps := by
  have hasked : View.required .qualifiedName = [] := rfl
  simp [qualifiedName, nameTail, Answers.of_required_nil hasked]

@[simp] theorem checks_delimited (b : Brackets) {item : Parser Bool} (h : ∀ qs, item.Checks qs) :
    (delimited b item).Checks ps := by
  simp [delimited, h]

/-- A statement ends with a semicolon or without one. -/
@[simp] theorem flow_semicolon : semicolon.Flow ps Q ↔ Q () (.token none :: ps) ∧ Q () ps := by
  simp only [semicolon, flow_bind, flow_eat, flow_when, flow_look, flow_report]
  constructor
  · rintro ⟨hsome, hnone⟩
    exact ⟨hsome.2 rfl, (hnone.1 rfl ⟨.eof, [], false⟩).2 rfl⟩
  · rintro ⟨hsome, hnone⟩
    exact ⟨⟨fun h => (by cases h), fun _ => hsome⟩, fun _ g => ⟨fun _ => trivial, fun _ => hnone⟩,
      fun h => (by cases h)⟩

@[simp] theorem checks_semicolon : semicolon.Checks ps := by
  simp [semicolon, skipStatement]

@[simp] theorem flow_braced (kind : Kind) :
    (braced kind).Flow ps Q ↔ (kind ≠ .error → Q () (.node kind none :: ps)) := by
  simp [braced]

theorem checks_braced {kind : Kind} (hasked : View.required kind = []) :
    (braced kind).Checks ps := by
  simp [braced, statements, Answers.of_required_nil hasked]

@[simp] theorem flow_block : block.Flow ps Q ↔ Q () (.node .block none :: ps) := by
  simp [block]

@[simp] theorem checks_block : block.Checks ps := checks_braced rfl

@[simp] theorem flow_expression (field : Field) : (expression field).Flow ps Q ↔
    ∀ kind, Family.expression.admits kind = true → Q () (.node kind (some field) :: ps) := by
  simp [expression, Rule.role]

@[simp] theorem checks_expression (field : Field) : (expression field).Checks ps := by
  simp [expression]

@[simp] theorem flow_assignment (field : Field) : (assignment field).Flow ps Q ↔
    ∀ kind, Family.expression.admits kind = true → Q () (.node kind (some field) :: ps) := by
  simp [assignment, Rule.role]

@[simp] theorem checks_assignment (field : Field) : (assignment field).Checks ps := by
  simp [assignment]

@[simp] theorem flow_typeIn (field : Field) : (typeIn field).Flow ps Q ↔
    ∀ kind, Family.type.admits kind = true → Q () (.node kind (some field) :: ps) := by
  simp [typeIn, Rule.role]

@[simp] theorem checks_typeIn (field : Field) : (typeIn field).Checks ps := by
  simp [typeIn]

@[simp] theorem flow_typeAscription? (field : Field) : (typeAscription? field).Flow ps Q ↔
    Q () (.node .typeAscription (some field) :: ps) ∧ Q () ps := by
  simp [typeAscription?, typeAscription]

@[simp] theorem checks_typeAscription? (field : Field) : (typeAscription? field).Checks ps := by
  have hasked : View.required .typeAscription = [.node .type (.family .type)] := rfl
  simp +contextual [typeAscription?, typeAscription, answers_iff hasked]

@[simp] theorem flow_typeArguments :
    typeArguments.Flow ps Q ↔ Q () (.node .typeArgList (some .typeArguments) :: ps) := by
  simp [typeArguments]

@[simp] theorem checks_typeArguments : typeArguments.Checks ps := by
  have hasked : View.required .typeArgList = [] := rfl
  simp [typeArguments, Answers.of_required_nil hasked]

@[simp] theorem flow_typeName : typeName.Flow ps Q ↔ Q () (.node .typeName none :: ps) := by
  simp [typeName]

@[simp] theorem checks_typeName : typeName.Checks ps := by
  have hasked : View.required .typeName = [] := rfl
  simp [typeName, Answers.of_required_nil hasked]

theorem flow_typeRule
    (h : ∀ kind, Family.type.admits kind = true → Q () (.node kind none :: ps)) :
    typeRule.Flow ps Q := by
  refine flow_bind.2 fun g => ?_
  dsimp only
  split <;> simp [h .anyType rfl, h .voidType rfl, h .typeName rfl, h .genericType rfl]

theorem checks_typeRule : typeRule.Checks ps := by
  have hname : View.required .genericType =
    [.node .base .any, .node .typeArguments (.only .typeArgList)] := rfl
  refine ⟨checks_look _, fun g => ?_⟩
  dsimp only
  split
  · simp (disch := decide) [Answers.of_required_nil]
  · simp (disch := decide) [Answers.of_required_nil, answers_iff hname]
  · simp

@[simp] theorem flow_parameter :
    parameter.Flow ps Q ↔ Q () (.node .param (some .parameter) :: ps) := by
  simp [parameter]

@[simp] theorem checks_parameter : parameter.Checks ps := by
  have hasked : View.required .param = [.node .name (.only .ident)] := rfl
  simp [parameter, answers_iff hasked]

@[simp] theorem flow_restParameter :
    restParameter.Flow ps Q ↔ Q () (.node .restParam (some .parameter) :: ps) := by
  simp [restParameter]

@[simp] theorem checks_restParameter : restParameter.Checks ps := by
  have hasked : View.required .restParam = [.node .name (.only .ident)] := rfl
  simp [restParameter, answers_iff hasked]

@[simp] theorem flow_parameterList :
    parameterList.Flow ps Q ↔ Q () (.node .paramList (some .parameters) :: ps) := by
  simp [parameterList]

@[simp] theorem checks_parameterList : parameterList.Checks ps := by
  have hasked : View.required .paramList = [] := rfl
  simp only [parameterList, checks_bind, checks_nodeOf, checks_take, checks_expect, checks_label,
    flow_true, Answers.of_required_nil hasked, implies_true, and_true, true_and]
  refine checks_loop fun qs => ⟨checks_peek, flow_peek.2 fun k => ?_⟩
  dsimp only
  split <;> simp

@[simp] theorem flow_signature : signature.Flow ps Q ↔
    Q () (.node .typeAscription (some .returnType) :: .node .paramList (some .parameters) :: ps) ∧
      Q () (.node .paramList (some .parameters) :: ps) := by
  simp [signature]

@[simp] theorem checks_signature : signature.Checks ps := by
  simp [signature]

/-! ## Operands -/

@[simp] theorem flow_arguments :
    arguments.Flow ps Q ↔ Q () (.node .argList (some .arguments) :: ps) := by
  simp [arguments]

@[simp] theorem checks_arguments : arguments.Checks ps := by
  have hasked : View.required .argList = [] := rfl
  simp [arguments, Answers.of_required_nil hasked]

theorem flow_elements (h : ∀ qs, Part.Adds [.element] ps qs → Q () qs) :
    elements.Flow ps Q := by
  simp only [elements, flow_bind, flow_require, flow_take]
  refine flow_loop [.element] (fun qs => by simp) fun qs hqs => ?_
  rw [flow_expect]
  exact h _ ((Part.Adds.refl [.element] ps).token_none.trans hqs).token_none

@[simp] theorem checks_elements : elements.Checks ps := by
  simp [elements]

@[simp] theorem checks_property? : property?.Checks ps := by
  have hasked : View.required .pair = [.node .key .any, .node .value (.family .expression)] := rfl
  simp only [property?, checks_bind, checks_peek, flow_peek, checks_ite, checks_nodeOf, checks_leaf,
    flow_nodeOf, checks_pure, true_and, implies_true, and_true]
  refine fun k _ => ⟨⟨fun _ => ?_, by simp⟩, by simp +contextual [answers_iff hasked]⟩
  split <;> exact Answers.of_required_nil rfl _

@[simp] theorem flow_objectLiteral :
    objectLiteral.Flow ps Q ↔ Q () (.node .objectLiteral none :: ps) := by
  simp [objectLiteral]

@[simp] theorem checks_objectLiteral : objectLiteral.Checks ps := by
  have hasked : View.required .objectLiteral = [] := rfl
  simp [objectLiteral, Answers.of_required_nil hasked]

/-- The first node of a vector literal is its type. -/
theorem flow_vectorBody (h : ∀ kind qs, Family.type.admits kind = true →
    Part.Adds [.element] (.node kind (some .type) :: .token none :: ps) qs → Q () qs) :
    vectorBody.Flow ps Q := by
  simp only [vectorBody, flow_bind, flow_take, flow_typeIn, flow_expectIn, flow_sees, flow_ite,
    flow_missing]
  refine fun kind hkind => ⟨⟨fun _ => flow_elements fun qs hqs => ?_, ?_⟩, ?_⟩
  · exact h kind qs hkind ((Part.Adds.refl _ _).token_none.trans hqs)
  · simp
  · simp

@[simp] theorem checks_vectorBody : vectorBody.Checks ps := by
  simp [vectorBody]

/-- A vector literal, with or without `new` in front, has its type. -/
theorem answers_vectorLiteral : vectorBody.Flow ps fun _ qs => Part.nodeIn? .type ps = none →
    Answers .vectorLiteral qs := by
  have hasked : View.required .vectorLiteral = [.node .type (.family .type)] := rfl
  refine flow_vectorBody fun kind qs hkind hqs hnone => (answers_iff hasked (by decide)).2 ?_
  have htype : Part.nodeIn? .type qs = some kind := hqs.nodeIn? (by simp [hnone])
  simp [htype, hkind]

@[simp] theorem flow_functionExpression :
    functionExpression.Flow ps Q ↔ Q () (.node .functionExpr none :: ps) := by
  simp [functionExpression]

@[simp] theorem checks_functionExpression : functionExpression.Checks ps := by
  have hasked : View.required .functionExpr =
    [.node .parameters (.only .paramList), .node .body (.only .block)] := rfl
  simp [functionExpression, answers_iff hasked]

theorem flow_wordOperand (g : Glimpse)
    (h : ∀ kind, Family.expression.admits kind = true → Q () (.node kind none :: ps)) :
    (wordOperand g).Flow ps Q := by
  unfold wordOperand
  split
  case h_7 => exact flow_functionExpression.2 (h _ rfl)
  all_goals exact fun _ => h _ rfl

@[simp] theorem checks_wordOperand (g : Glimpse) : (wordOperand g).Checks ps := by
  unfold wordOperand
  split
  case h_7 => exact checks_functionExpression
  all_goals simp (disch := decide) [Answers.of_required_nil]

theorem flow_operand
    (h : ∀ kind, Family.expression.admits kind = true → Q () (.node kind none :: ps)) :
    operand.Flow ps Q := by
  have hvector {P : Bool → List Part → Prop} (hp : ∀ value, P value ps) : opensVector.Flow ps P :=
    flow_of_onlyLooks (Setting.onlyLooks_closesVector _ _ _) hp
  refine flow_bind.2 fun g => ?_
  dsimp only
  split
  case h_4 => exact flow_wordOperand g h
  case h_7 => exact flow_objectLiteral.2 (h _ rfl)
  case h_8 =>
    refine flow_bind.2 (hvector fun value => flow_ite.2 ⟨fun _ => ?_, fun _ => ?_⟩)
    · exact flow_nodeOf.2 fun _ => h _ rfl
    · exact fun kind hkind => h kind (eq_of_beq hkind ▸ rfl)
  case h_9 => exact fun hne => absurd rfl hne
  case h_10 => exact flow_rejectUnless _ _
  all_goals exact flow_nodeOf.2 fun _ => h _ rfl

@[simp] theorem checks_operand : operand.Checks ps := by
  have hparen : View.required .parenExpr = [.node .expression (.family .expression)] := rfl
  have hvector : View.required .vectorLiteral = [.node .type (.family .type)] := rfl
  have hopens : opensVector.Checks ps := checks_of_onlyLooks (Setting.onlyLooks_closesVector _ _ _)
  refine ⟨checks_look _, fun g => ?_⟩
  dsimp only
  split
  case h_5 => simp [answers_iff hparen]
  case h_8 =>
    refine ⟨hopens, flow_of_forall (fun value qs => ?_) _ _⟩
    refine checks_ite.2 ⟨fun _ => checks_nodeOf.2 ⟨checks_vectorBody, ?_⟩, fun _ => checks_call _⟩
    exact answers_vectorLiteral.mono fun _ rs hrs _ => hrs rfl
  all_goals simp (disch := decide) [Answers.of_required_nil]

/-! ## Accesses and calls -/

@[simp] theorem flow_propertyName : propertyName.Flow ps Q ↔
    Q () (.node .ident (some .property) :: ps) ∧ Q () (.node .wildcard (some .property) :: ps) := by
  simp only [propertyName, flow_bind, flow_peek]
  constructor
  · intro h
    exact ⟨(flow_leaf .ident).1 (h .name) (by decide), (flow_leaf .wildcard).1 (h .star)
      (by decide)⟩
  · rintro ⟨hname, hstar⟩ k
    split
    · exact (flow_leaf .ident).2 fun _ => hname
    · exact (flow_leaf .wildcard).2 fun _ => hstar
    · exact flow_missing _

@[simp] theorem checks_propertyName : propertyName.Checks ps := by
  refine ⟨checks_peek, flow_peek.2 fun k => ⟨?_, flow_of_forall (fun _ _ => trivial) _ _⟩⟩
  split <;> simp (disch := decide) [Answers.of_required_nil]

section
variable {kind : Kind} (hkind : Family.expression.admits kind = true)
include hkind

/-- Operand and operator are all that an update has, in either order. -/
theorem answers_updateExpr {parts : List Part}
    (hparts : parts = [.token (some .operator), .node kind (some .argument)] ∨
      parts = [.node kind (some .argument), .token (some .operator)]) :
    Answers .updateExpr parts := by
  have hasked : View.required .updateExpr =
    [.token .operator, .node .argument (.family .expression)] := rfl
  refine ⟨?_, fun _ => ⟨kind, hparts⟩⟩
  rw [hasked]
  rcases hparts with rfl | rfl <;> simp [hkind]

/-- An expression stays one with every access. -/
theorem flow_link (calls : Bool) :
    (link calls).Flow (.node kind none :: ps) fun _ qs => Role.Made
      (.family .expression) ps qs := by
  have hmade {made : Kind} (h : Family.expression.admits made = true) :
      Role.Made (.family .expression) ps (.node made none :: ps) := ⟨made, h, rfl⟩
  refine flow_bind.2 fun g => ?_
  dsimp only
  split
  case h_1 =>
    refine flow_bind.2 (flow_wrap.2 (yields_bind.2 (.of_forall (fun seen => ?_) _)))
    simp (disch := decide) [hmade]
  all_goals simp (disch := decide) [hmade, hmade hkind]

/-- What an access asks is answered by the expression it is put around and what it adds. -/
theorem checks_link (calls : Bool) : (link calls).Checks (.node kind none :: ps) := by
  have hfilter : View.required .filterExpr =
    [.node .object (.family .expression), .node .condition (.family .expression)] := rfl
  have hmember : View.required .memberExpr =
    [.node .object (.family .expression), .node .property .any] := rfl
  have hdescendant : View.required .descendantExpr =
    [.node .object (.family .expression), .node .property .any] := rfl
  have haccess : View.required .namespaceAccessExpr =
    [.node .nameSpace (.family .expression), .node .property .any] := rfl
  have hgeneric : View.required .genericType =
    [.node .base .any, .node .typeArguments (.only .typeArgList)] := rfl
  have hsubscript : View.required .subscriptExpr =
    [.node .object (.family .expression), .node .index (.family .expression)] := rfl
  have hcall : View.required .callExpr =
    [.node .function (.family .expression), .node .arguments (.only .argList)] := rfl
  refine ⟨checks_look _, fun g => ?_⟩
  dsimp only
  split
  case h_1 => simp +contextual [hkind, answers_iff hfilter, answers_iff hmember]
  case h_2 => simp [hkind, answers_iff hdescendant]
  case h_3 => simp [hkind, answers_iff haccess]
  case h_4 => simp [answers_iff hgeneric]
  case h_5 => simp +contextual [hkind, answers_iff hsubscript]
  case h_6 => simp [hkind, answers_iff hcall]
  case h_7 => simp [answers_updateExpr hkind]
  case h_8 => simp [answers_updateExpr hkind]
  case h_9 => simp

theorem flow_chain (calls : Bool)
    (h : ∀ made, Family.expression.admits made = true → Q () (.node made none :: ps)) :
    (chain calls).Flow (.node kind none :: ps) Q :=
  flow_loop_made (.family .expression) hkind (fun _ hmade => flow_link hmade calls) h

theorem checks_chain (calls : Bool) : (chain calls).Checks (.node kind none :: ps) :=
  checks_loop_made (.family .expression) hkind (fun _ hmade => flow_link hmade calls) fun _ hmade =>
    checks_link hmade calls

end

/-- What a chain begins with. -/
theorem flow_head (c : Bool)
    (h : ∀ kind, Family.expression.admits kind = true → Q () (.node kind none :: ps)) :
    (if c then call .construction else operand).Flow ps Q :=
  flow_ite.2 ⟨fun _ => flow_call.2 h, fun _ => flow_operand h⟩

theorem flow_constructionRule
    (h : ∀ kind, Family.expression.admits kind = true → Q () (.node kind none :: ps)) :
    constructionRule.Flow ps Q := by
  simp (disch := decide) [constructionRule, h]

theorem checks_constructionRule : constructionRule.Checks ps := by
  have hasked : View.required .newExpr = [.node .constructor (.family .expression)] := rfl
  refine checks_node.2 ⟨⟨checks_takeWord _ _, checks_look _, fun g => checks_ite.2 ⟨fun _ => ?_,
    fun _ => ⟨by simp, ?_⟩⟩⟩, fun g => flow_ite.2 ⟨fun _ => ?_, fun _ => ?_⟩⟩
  · simp
  · refine flow_head _ fun kind hkind => ⟨checks_chain hkind false, ?_⟩
    exact flow_chain hkind false fun made _ => by simp
  · exact answers_vectorLiteral.mono fun _ qs hqs _ => hqs rfl
  · refine flow_head _ fun kind hkind => flow_bind.2 (flow_chain hkind false fun made hmade => ?_)
    simp [hmade, answers_iff hasked]

theorem flow_chained
    (h : ∀ kind, Family.expression.admits kind = true → Q () (.node kind none :: ps)) :
    chained.Flow ps Q :=
  flow_bind.2 fun _ => flow_bind.2 (flow_head _ fun _ hkind => flow_chain hkind true h)

@[simp] theorem checks_chained : chained.Checks ps := by
  refine ⟨checks_look _, fun g => ⟨by simp, flow_head _ fun kind hkind => ?_⟩⟩
  exact checks_chain hkind true

/-! ## Operators -/

@[simp] theorem flow_takeOperator (op : Kind) :
    (takeOperator op).Flow ps Q ↔ Q () (.token (some .operator) :: ps) := by
  unfold takeOperator
  split <;> simp

@[simp] theorem checks_takeOperator (op : Kind) : (takeOperator op).Checks ps := by
  simp [takeOperator]

theorem flow_unaryRule
    (h : ∀ kind, Family.expression.admits kind = true → Q () (.node kind none :: ps)) :
    unaryRule.Flow ps Q := by
  refine flow_bind.2 fun g => ?_
  dsimp only
  split
  · exact flow_chained h
  · refine flow_nodeOf.2 fun _ => h _ ?_
    split <;> rfl

theorem checks_unaryRule : unaryRule.Checks ps := by
  have hasked : View.required .unaryExpr =
    [.token .operator, .node .argument (.family .expression)] := rfl
  have hupdate {kind : Kind} (hkind : Family.expression.admits kind = true) :
      Answers .updateExpr [.node kind (some .argument), .token (some .operator)] :=
    answers_updateExpr hkind (.inr rfl)
  refine ⟨checks_look _, fun g => ?_⟩
  dsimp only
  split
  · exact checks_chained
  · split
    · simp +contextual [Rule.role, hupdate]
    · simp +contextual [Rule.role, answers_iff hasked]

theorem yields_operation (op : Kind) (p : Precedence) (r : Restrictions) :
    (operation op p r).Yields fun kind => Family.expression.admits kind = true := by
  unfold operation
  split <;> simp only [yields_bind, yields_pure, yields_const]
  case h_1 | h_3 => rfl
  case h_2 | h_4 => split <;> rfl

section
variable {kind : Kind} (hkind : Family.expression.admits kind = true)
include hkind

/-- The operands stand where they are asked for. -/
theorem flow_operation (op : Kind) (p : Precedence) (r : Restrictions) :
    (operation op p r).Flow [.node kind (some (fieldBefore p))] Answers := by
  have hsequence : View.required .sequenceExpr =
    [.node .left (.family .expression), .node .right (.family .expression)] := rfl
  have hassign : View.required .assignExpr =
    [.node .left (.family .expression), .node .right (.family .expression)] := rfl
  have haugmented : View.required .augmentedAssignExpr =
    [.node .left (.family .expression), .token .operator,
      .node .right (.family .expression)] := rfl
  have hternary : View.required .ternaryExpr =
    [.node .condition (.family .expression), .node .consequence (.family .expression),
      .node .alternative (.family .expression)] := rfl
  have hcast : View.required .castExpr =
    [.node .left (.family .expression), .node .right (.family .expression)] := rfl
  have hbinary : View.required .binaryExpr =
    [.node .left (.family .expression), .token .operator,
      .node .right (.family .expression)] := rfl
  unfold operation
  split
  case h_1 => simp [fieldBefore, Rule.role, hkind, answers_iff hsequence]
  case h_2 =>
    by_cases hop : op = .eq
    · simp [fieldBefore, Rule.role, hkind, hop, answers_iff hassign]
    · simp [fieldBefore, Rule.role, hkind, hop, answers_iff haugmented]
  case h_3 => simp +contextual [fieldBefore, Rule.role, hkind, answers_iff hternary]
  case h_4 hternary =>
    have hfield : fieldBefore p = .left := by
      cases p <;> first | rfl | exact (hternary rfl).elim
    by_cases hop : op = .asKw
    · simp [hfield, Rule.role, hkind, hop, answers_iff hcast]
    · simp [hfield, Rule.role, hkind, hop, answers_iff hbinary]

end

theorem checks_operation (op : Kind) (p : Precedence) (r : Restrictions) :
    (operation op p r).Checks ps := by
  unfold operation
  split <;> simp

/-- An operator makes an expression of its first operand. -/
theorem flow_operator (min : Precedence) (r : Restrictions) (made : Kind)
    (hmade : Family.expression.admits made = true) :
    Parser.Flow (do
      let g ← look .operator
      match infixOperator? r g with
      | none => return false
      | some (op, p) =>
        if p.rank < min.rank then return false
        else
          wrap (fieldBefore p) (operation op p r)
          return true) (.node made none :: ps) fun _ qs => Role.Made
            (.family .expression) ps qs := by
  refine fun g => ?_
  dsimp only
  split
  · exact ⟨made, hmade, rfl⟩
  · refine flow_ite.2 ⟨fun _ => ⟨made, hmade, rfl⟩, fun _ => (yields_operation _ _ r).mono ?_⟩
    exact fun kind hkind _ => ⟨kind, hkind, rfl⟩

theorem flow_expressionRule (min : Precedence) (r : Restrictions)
    (h : ∀ kind, Family.expression.admits kind = true → Q () (.node kind none :: ps)) :
    (expressionRule min r).Flow ps Q :=
  flow_bind.2 (flow_call.2 fun _ hkind =>
    flow_loop_made (.family .expression) hkind (flow_operator min r) h)

theorem checks_expressionRule (min : Precedence) (r : Restrictions) :
    (expressionRule min r).Checks ps := by
  refine ⟨checks_call _, flow_call.2 fun kind hkind => ?_⟩
  refine checks_loop_made (.family .expression) hkind (flow_operator min r) fun made hmade =>
    ⟨checks_look _, fun g => ?_⟩
  dsimp only
  split
  · trivial
  · refine checks_ite.2 ⟨fun _ => trivial, fun _ => ⟨⟨checks_operation _ _ r, ?_⟩, ?_⟩⟩
    · exact (flow_operation hmade _ _ r).mono fun _ _ h _ => h
    · exact .of_forall (fun _ _ => trivial) _

end Grammar

end ActionScript
