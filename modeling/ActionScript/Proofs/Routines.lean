import ActionScript.Proofs.Plain
import ActionScript.Proofs.Safety.Statements

/-!
# Routines that group nothing

The routines of the grammar, but those for operators, accesses and calls, are plain.  Each is seen
to be so by looking at it once; what it calls has been looked at before.

* `plain_operand`, `plain_elementRule`, `plain_statementRule`, `plain_sourceFile`: the plain
  routines.
* `tops_operand`: an operand ends in a node of its own.
-/

set_option autoImplicit false

namespace ActionScript

/-! ## The common pieces -/

namespace Parser

@[simp] theorem plain_peek : peek.Plain := by simp [peek]
@[simp] theorem plain_sees (kind : Kind) : (sees kind).Plain := by simp [sees]
@[simp] theorem plain_seesIn (mode : Mode) (kind : Kind) : (seesIn mode kind).Plain := by
  simp [seesIn]
@[simp] theorem plain_seesWord (word : String) : (seesWord word).Plain := by simp [seesWord]
@[simp] theorem plain_leaf {kind : Kind} : (leaf kind).Plain ↔ kind.isPlain = true := by simp [leaf]
@[simp] theorem plain_wordLeaf {keyword kind : Kind} :
    (wordLeaf keyword kind).Plain ↔ kind.isPlain = true := by simp [wordLeaf]
@[simp] theorem plain_eat (kind : Kind) : (eat kind).Plain := by simp [eat]
@[simp] theorem plain_eatWord (keyword : Kind) : (eatWord keyword).Plain := by simp [eatWord]
@[simp] theorem plain_missing (error : SyntaxError) : (missing error).Plain := by
  simp +decide [missing]
@[simp] theorem plain_reject (error : SyntaxError) : (reject error).Plain := by
  simp +decide [reject]
@[simp] theorem plain_rejectUnless (stops : KindSet) (error : SyntaxError) :
    (rejectUnless stops error).Plain := by simp [rejectUnless]
@[simp] theorem plain_expectIn (mode : Mode) (kind : Kind) : (expectIn mode kind).Plain := by
  simp [expectIn]
@[simp] theorem plain_expect (kind : Kind) : (expect kind).Plain := by simp [expect]
@[simp] theorem plain_expectWord (keyword : Kind) : (expectWord keyword).Plain := by
  simp [expectWord]
@[simp] theorem plain_callIn (field : Field) (rule : Rule) : (callIn field rule).Plain := by
  simp [callIn]

section
variable {F : Field → Prop}

@[simp] theorem labels_sees (kind : Kind) : (sees kind).Labels F := by simp [sees, peek]
@[simp] theorem labels_nodeOf (kind : Kind) (body : Parser Unit) : (nodeOf kind body).Labels F :=
  labels_node _
@[simp] theorem labels_expect (kind : Kind) : (expect kind).Labels F := by
  simp [expect, expectIn, seesIn, missing]
@[simp] theorem labels_callIn {field : Field} {rule : Rule} :
    (callIn field rule).Labels F ↔ F field := by simp [callIn]

end

@[simp] theorem tops_leaf {kind : Kind} : (leaf kind).Tops ↔ kind.isInfix = false := tops_nodeOf
@[simp] theorem tops_wordLeaf {keyword kind : Kind} :
    (wordLeaf keyword kind).Tops ↔ kind.isInfix = false := tops_nodeOf
@[simp] theorem tops_rejectUnless (stops : KindSet) (error : SyntaxError) :
    (rejectUnless stops error).Tops := by
  simp [rejectUnless, reject, missing, Kind.isInfix]

end Parser

namespace Grammar

open ActionScript.Parser

/-! ## Names, lists and types -/

@[simp] theorem plain_name (field : Field) (stops : List Kind) : (name field stops).Plain := by
  simp +decide [name]

@[simp] theorem plain_qualifiedName (field : Field) (wildcard : Bool) :
    (qualifiedName field wildcard).Plain := by
  simp +decide [qualifiedName, nameTail]

@[simp] theorem plain_delimited (b : Brackets) {item : Parser Bool} (h : item.Plain) :
    (delimited b item).Plain := by
  simp [delimited, h]

@[simp] theorem plain_semicolon : semicolon.Plain := by
  simp +decide [semicolon, skipStatement]

@[simp] theorem plain_braced {kind : Kind} (h : kind.isPlain = true) : (braced kind).Plain := by
  simp [braced, statements, h]

@[simp] theorem plain_block : block.Plain := plain_braced (by decide)

@[simp] theorem plain_expression (field : Field) : (expression field).Plain := by
  simp [expression]

@[simp] theorem plain_assignment (field : Field) : (assignment field).Plain := by
  simp [assignment]

@[simp] theorem plain_typeAscription? (field : Field) : (typeAscription? field).Plain := by
  simp +decide [typeAscription?, typeAscription, typeIn]

@[simp] theorem plain_typeArguments : typeArguments.Plain := by
  simp +decide [typeArguments, typeIn]

@[simp] theorem plain_typeName : typeName.Plain := by
  simp +decide [typeName]

@[simp] theorem plain_parameter : parameter.Plain := by
  simp +decide [parameter]

@[simp] theorem plain_restParameter : restParameter.Plain := by
  simp +decide [restParameter]

@[simp] theorem plain_parameterList : parameterList.Plain := by
  simp only [parameterList, plain_bind, plain_nodeOf, plain_take, plain_loop, plain_peek,
    plain_expect, plain_label, true_and, and_true, implies_true]
  refine ⟨fun _ k => ?_, by decide⟩
  split <;> simp

@[simp] theorem plain_signature : signature.Plain := by
  simp [signature]

/-! ## Operands -/

@[simp] theorem plain_arguments : arguments.Plain := by
  simp +decide [arguments]

@[simp] theorem plain_elements : elements.Plain := by
  simp [elements]

@[simp] theorem plain_property? : property?.Plain := by
  refine ⟨plain_peek, fun k => plain_ite.2 ⟨fun _ => ⟨plain_nodeOf.2 ⟨?_, by decide⟩, ?_⟩, ?_⟩⟩
  · refine ⟨plain_leaf.2 ?_, by simp⟩
    split <;> decide
  · simp
  · simp

@[simp] theorem plain_objectLiteral : objectLiteral.Plain := by
  simp +decide [objectLiteral]

theorem plain_of_onlyLooks {α : Type} {p : Parser α} (h : p.OnlyLooks) : p.Plain := by
  induction p with
  | andThen first next ihFirst ihNext => exact ⟨ihFirst h.1, fun value => ihNext value (h.2 value)⟩
  | done value => trivial
  | ahead distance => trivial
  | _ => exact h.elim

@[simp] theorem plain_vectorBody : vectorBody.Plain := by
  simp [vectorBody, typeIn]

@[simp] theorem plain_functionExpression : functionExpression.Plain := by
  simp +decide [functionExpression]

@[simp] theorem plain_wordOperand (g : Glimpse) : (wordOperand g).Plain := by
  unfold wordOperand
  split <;> simp +decide

@[simp] theorem plain_operand : operand.Plain := by
  have hvector : opensVector.Plain := plain_of_onlyLooks (Setting.onlyLooks_closesVector _ _ _)
  refine ⟨plain_look _, fun g => ?_⟩
  dsimp only
  split <;> simp +decide [hvector]

@[simp] theorem plain_propertyName : propertyName.Plain := by
  refine ⟨plain_peek, fun k => ⟨?_, fun _ => plain_label _⟩⟩
  split <;> simp +decide

theorem labels_propertyName {F : Field → Prop} (h : F .property) : propertyName.Labels F := by
  refine ⟨⟨trivial, fun _ => trivial⟩, fun k => ⟨?_, fun _ => h⟩⟩
  split <;> simp [leaf, missing]

@[simp] theorem tops_wordOperand (g : Glimpse) : (wordOperand g).Tops := by
  unfold wordOperand
  split <;> simp [functionExpression, Kind.isInfix]

/-- An operand ends in a node of its own. -/
theorem tops_operand : operand.Tops := by
  intro g
  dsimp only
  split <;> simp [objectLiteral, Kind.isInfix, Rule.floor]

/-! ## Elements -/

@[simp] theorem plain_interpolation (field : Field) : (interpolation field).Plain := by
  simp +decide [interpolation]

@[simp] theorem plain_tagName : tagName.Plain := by
  refine ⟨plain_look _, fun g => ?_⟩
  dsimp only
  split <;> simp

@[simp] theorem plain_tagName? : tagName?.Plain := by
  simp [tagName?]

@[simp] theorem plain_tagAttribute : tagAttribute.Plain := by
  simp only [tagAttribute, plain_bind, plain_nodeOf, plain_take, plain_expectIn, plain_when,
    plain_look, plain_label, true_and, and_true, implies_true]
  refine ⟨fun _ _ _ g => ?_, by decide⟩
  split <;> simp

@[simp] theorem plain_attributes : attributes.Plain := by
  refine ⟨plain_look _, fun g => ?_⟩
  dsimp only
  split <;> simp

@[simp] theorem plain_startTag : startTag.Plain := by
  simp +decide [startTag]

@[simp] theorem plain_content : content.Plain := by
  refine ⟨plain_look _, fun g => ?_⟩
  dsimp only
  split <;> simp

@[simp] theorem plain_checkName (opening closing : Option Text) :
    (checkName opening closing).Plain := by
  unfold checkName
  split <;> simp

@[simp] theorem plain_endTag (opening : Option Text) : (endTag opening).Plain := by
  simp +decide [endTag]

theorem plain_elementRule : elementRule.Plain := by
  simp +decide [elementRule]

/-! ## Declarations -/

@[simp] theorem plain_nextDeclaration? : nextDeclaration?.Plain :=
  plain_of_onlyLooks (Setting.onlyLooks_declarationWord? _ _)

@[simp] theorem plain_behindMetadata? (i : Nat) : (behindMetadata? i).Plain :=
  plain_of_onlyLooks (Setting.onlyLooks_behindMetadata? i)

@[simp] theorem plain_metadataArgument? : metadataArgument?.Plain := by
  simp +decide [metadataArgument?]

@[simp] theorem plain_metadataRun : metadataRun.Plain := by
  simp +decide [metadataRun, metadata]

@[simp] theorem plain_modifier {kind : Kind} (h : kind.isPlain = true) (g : Glimpse) :
    (modifier kind g).Plain := by
  unfold modifier
  split <;> simp [h]

@[simp] theorem plain_modifiers (keyword : Kind) : (modifiers keyword).Plain := by
  simp +decide [modifiers]

@[simp] theorem plain_memberBody {kind : Kind} (h : kind.isPlain = true) :
    (memberBody kind).Plain := by
  simp [memberBody, h]

@[simp] theorem plain_clause? {kind : Kind} (h : kind.isPlain = true) (keyword : Kind)
    (field : Field) {body : Parser Unit} (hbody : body.Plain) :
    (clause? keyword kind field body).Plain := by
  simp [clause?, h, hbody]

@[simp] theorem plain_typeList : typeList.Plain := by
  simp [typeList, typeIn]

@[simp] theorem plain_classBody : classBody.Plain := by
  simp +decide [classBody, typeIn]

@[simp] theorem plain_interfaceBody : interfaceBody.Plain := by
  simp +decide [interfaceBody]

@[simp] theorem plain_functionBody : functionBody.Plain := by
  simp [functionBody, accessor]

@[simp] theorem plain_declarators (r : Restrictions) : (declarators r).Plain := by
  simp +decide [declarators]

@[simp] theorem plain_variableBody (keyword : Kind) : (variableBody keyword).Plain := by
  simp [variableBody]

@[simp] theorem plain_namespaceBody : namespaceBody.Plain := by
  simp [namespaceBody]

/-- A declaration is plain, and of a plain kind. -/
theorem plain_declarationBody (keyword : Kind) :
    (declarationBody keyword).Plain ∧
      (declarationBody keyword).Yields fun kind => kind.isPlain = true := by
  unfold declarationBody
  rw [plain_bind, yields_bind]
  refine ⟨⟨plain_modifiers keyword, fun _ => ?_⟩, ?_⟩ <;> split <;> simp +decide

@[simp] theorem plain_declaration (keyword : Kind) : (declaration keyword).Plain := by
  simp [declaration, plain_declarationBody]

@[simp] theorem plain_annotated : annotated.Plain := by
  simp only [annotated, plain_node, plain_bind, plain_metadataRun, plain_nextDeclaration?,
    yields_bind, true_and]
  refine ⟨fun _ k => ?_, ?_⟩
  · split <;> simp [plain_declarationBody]
  · refine .of_forall (fun _ => .of_forall (fun k => ?_) _) _
    split <;> simp +decide [plain_declarationBody]

@[simp] theorem plain_variableHead : variableHead.Plain := by
  simp +decide [variableHead]

@[simp] theorem plain_packageDeclaration : packageDeclaration.Plain := by
  simp +decide [packageDeclaration]

@[simp] theorem plain_importStatement : importStatement.Plain := by
  simp +decide [importStatement]

@[simp] theorem plain_includeDirective : includeDirective.Plain := by
  simp +decide [includeDirective]

@[simp] theorem plain_useNamespaceDirective : useNamespaceDirective.Plain := by
  simp +decide [useNamespaceDirective]

/-! ## Statements -/

@[simp] theorem plain_statementIn (field : Field) : (statementIn field).Plain := by
  simp [statementIn]

@[simp] theorem plain_expressionStatement : expressionStatement.Plain := by
  simp +decide [expressionStatement]

@[simp] theorem plain_parenthesized (field : Field) : (parenthesized field).Plain := by
  simp [parenthesized]

@[simp] theorem plain_ifStatement : ifStatement.Plain := by
  simp +decide [ifStatement]

@[simp] theorem plain_switchClause (g : Glimpse) : (switchClause g).Plain := by
  simp +decide [switchClause, clauseStatements]

@[simp] theorem plain_switchStatement : switchStatement.Plain := by
  simp +decide [switchStatement]

@[simp] theorem plain_forStatement : forStatement.Plain := by
  simp +decide [forStatement, forHead]

@[simp] theorem plain_whileStatement : whileStatement.Plain := by
  simp +decide [whileStatement]

@[simp] theorem plain_doStatement : doStatement.Plain := by
  simp +decide [doStatement]

@[simp] theorem plain_withStatement : withStatement.Plain := by
  simp +decide [withStatement]

@[simp] theorem plain_bodyBlock : bodyBlock.Plain := by
  simp [bodyBlock]

@[simp] theorem plain_tryStatement : tryStatement.Plain := by
  simp +decide [tryStatement, catchClauses, catchClause]

@[simp] theorem plain_jumpStatement {kind : Kind} (h : kind.isPlain = true) (keyword : Kind) :
    (jumpStatement keyword kind).Plain := by
  simp [jumpStatement, h]

@[simp] theorem plain_valueStatement {kind : Kind} (h : kind.isPlain = true) (keyword : Kind) :
    (valueStatement keyword kind).Plain := by
  simp [valueStatement, h]

@[simp] theorem plain_plainWordStatement : plainWordStatement.Plain := by
  refine ⟨plain_nextDeclaration?, fun k => ?_⟩
  dsimp only
  split <;> simp +decide [labeledStatement]

@[simp] theorem plain_wordStatement (g : Glimpse) : (wordStatement g).Plain := by
  unfold wordStatement
  split <;> simp +decide

theorem plain_statementRule : statementRule.Plain := by
  have hannotated : seesAnnotatedDeclaration.Plain :=
    plain_of_onlyLooks Setting.onlyLooks_seesAnnotatedDeclaration
  refine ⟨plain_look _, fun g => ?_⟩
  dsimp only
  split <;> simp +decide [hannotated]

theorem plain_sourceFile : sourceFile.Plain := by
  simp +decide [sourceFile]

end Grammar

end ActionScript
