import ActionScript.Proofs.Answering.Expressions

/-!
# Nodes of statements can answer

What declarations, XML elements and statements add to the open node (`flow_…`), and that their nodes
can answer (`checks_…`), if nothing is reported.

* `flow_rule`, `checks_rule`: the same of every rule.
-/

set_option autoImplicit false

namespace ActionScript.Grammar

open ActionScript.Parser

variable {ps : List Part} {Q : Unit → List Part → Prop}

/-! ## Annotations and modifiers -/

@[simp] theorem checks_metadataArgument? : metadataArgument?.Checks ps := by
  have hasked : View.required .metadataArg = [.node .value (.family .expression)] := rfl
  simp [metadataArgument?, answers_iff hasked]

@[simp] theorem flow_metadata :
    metadata.Flow ps Q ↔ Q () (.node .metadata (some .metadata) :: ps) := by
  simp [metadata]

@[simp] theorem checks_metadata : metadata.Checks ps := by
  have hasked : View.required .metadata = [.node .name (.only .ident)] := rfl
  have hlist : View.required .metadataArgList = [] := rfl
  simp [metadata, answers_iff hasked, Answers.of_required_nil hlist]

/-- The slots that may be filled in front of the keyword of a declaration. -/
def headSlots : List Field := [.metadata, .modifier]

theorem flow_metadataRun (h : ∀ qs, Part.Adds headSlots ps qs → Q () qs) :
    metadataRun.Flow ps Q := by
  refine flow_loop headSlots (fun qs => flow_bind.2 ?_) h
  refine flow_of_onlyLooks (Setting.onlyLooks_behindMetadata? 0) fun found => ?_
  simp [headSlots]

@[simp] theorem checks_metadataRun : metadataRun.Checks ps := by
  refine checks_loop fun qs => ⟨checks_of_onlyLooks (Setting.onlyLooks_behindMetadata? 0), ?_⟩
  refine flow_of_onlyLooks (Setting.onlyLooks_behindMetadata? 0) fun found => ?_
  simp

@[simp] theorem flow_modifier (kind : Kind) (g : Glimpse) : (modifier kind g).Flow ps Q ↔
    (kind ≠ .error → Q () (.node kind none :: ps)) := by
  unfold modifier
  split <;> simp

theorem checks_modifier {kind : Kind} (hasked : View.required kind = []) (g : Glimpse) :
    (modifier kind g).Checks ps := by
  unfold modifier
  split <;> simp [Answers.of_required_nil hasked]

theorem flow_modifiers (keyword : Kind) (h : ∀ qs, Part.Adds headSlots ps qs → Q () qs) :
    (modifiers keyword).Flow ps Q := by
  refine flow_loop headSlots (fun qs => ?_) h
  simp [headSlots]

@[simp] theorem checks_modifiers (keyword : Kind) : (modifiers keyword).Checks ps := by
  refine checks_loop fun qs => ?_
  have hclass (g : Glimpse) : (modifier .classAttribute g).Checks qs := checks_modifier rfl g
  have hproperty (g : Glimpse) : (modifier .propertyAttribute g).Checks qs := checks_modifier rfl g
  simp [hclass, hproperty]

/-! ## The declarations -/

@[simp] theorem flow_memberBody (kind : Kind) : (memberBody kind).Flow ps Q ↔
    (kind ≠ .error → Q () (.node kind (some .body) :: ps)) := by
  simp [memberBody]

theorem checks_memberBody {kind : Kind} (hasked : View.required kind = []) :
    (memberBody kind).Checks ps := by
  simp [memberBody, checks_braced hasked]

theorem flow_clause? (keyword kind : Kind) (field : Field) (body : Parser Unit)
    (hsome : Q () (.node kind (some field) :: ps)) (hnone : Q () ps) :
    (clause? keyword kind field body).Flow ps Q := by
  simp [clause?, hsome, hnone]

theorem checks_clause? {kind : Kind} {body : Parser Unit} (keyword : Kind) (field : Field)
    (hbody : body.Checks [.token none])
    (hkind : body.Flow [.token none] fun _ qs => Answers kind qs) :
    (clause? keyword kind field body).Checks ps := by
  have hanswers : body.Flow [.token none] fun _ qs => ¬kind = .error → Answers kind qs :=
    hkind.mono fun _ _ h _ => h
  simp [clause?, hbody, hanswers]

@[simp] theorem checks_typeList : typeList.Checks ps := by
  simp [typeList]

/-- A clause of which nothing is asked. -/
theorem checks_clause?_of_nil {kind : Kind} {body : Parser Unit} (keyword : Kind) (field : Field)
    (hasked : View.required kind = []) (hbody : body.Checks [.token none]) :
    (clause? keyword kind field body).Checks ps :=
  checks_clause? keyword field hbody
    (flow_of_forall (fun _ qs => Answers.of_required_nil hasked qs) body _)

theorem flow_accessor (hsome : Q () (.token (some .accessor) :: ps)) (hnone : Q () ps) :
    accessor.Flow ps Q := by
  simp [accessor, hsome, hnone]

@[simp] theorem checks_accessor : accessor.Checks ps := by
  simp [accessor]

section
variable (hps : Part.Adds headSlots [] ps)
include hps

theorem flow_classBody : classBody.Flow ps fun _ qs => Answers .classDecl qs := by
  have hasked : View.required .classDecl =
    [.node .name (.only .ident), .node .body (.only .classBody)] := rfl
  have hname : Part.nodeIn? .name ps = none := hps.nodeIn?_eq (by decide)
  have hbody : Part.nodeIn? .body ps = none := hps.nodeIn?_eq (by decide)
  simp only [classBody, flow_bind, flow_takeWord, flow_name]
  refine flow_clause? _ _ _ _ (flow_clause? _ _ _ _ ?_ ?_) (flow_clause? _ _ _ _ ?_ ?_) <;>
    simp [answers_iff hasked, hname, hbody]

theorem flow_interfaceBody : interfaceBody.Flow ps fun _ qs => Answers .interfaceDecl qs := by
  have hasked : View.required .interfaceDecl =
    [.node .name (.only .ident), .node .body (.only .interfaceBody)] := rfl
  have hname : Part.nodeIn? .name ps = none := hps.nodeIn?_eq (by decide)
  have hbody : Part.nodeIn? .body ps = none := hps.nodeIn?_eq (by decide)
  simp only [interfaceBody, flow_bind, flow_takeWord, flow_name]
  refine flow_clause? _ _ _ _ ?_ ?_ <;> simp [answers_iff hasked, hname, hbody]

theorem flow_functionBody : functionBody.Flow ps fun _ qs => Answers .functionDecl qs := by
  have hasked : View.required .functionDecl =
    [.node .name (.only .ident), .node .parameters (.only .paramList)] := rfl
  have hname : Part.nodeIn? .name ps = none := hps.nodeIn?_eq (by decide)
  have hparameters : Part.nodeIn? .parameters ps = none := hps.nodeIn?_eq (by decide)
  simp only [functionBody, flow_bind, flow_takeWord]
  refine flow_accessor ?_ ?_ <;> simp [answers_iff hasked, hname, hparameters]

theorem flow_namespaceBody : namespaceBody.Flow ps fun _ qs => Answers .namespaceDecl qs := by
  have hasked : View.required .namespaceDecl = [.node .name (.only .ident)] := rfl
  have hname : Part.nodeIn? .name ps = none := hps.nodeIn?_eq (by decide)
  simp [namespaceBody, answers_iff hasked, hname]

end

theorem checks_classBody : classBody.Checks ps := by
  have hbody {qs : List Part} : (memberBody .classBody).Checks qs := checks_memberBody rfl
  have hextends {qs : List Part} : (clause? .extendsKw .extendsClause .superclass
      (typeIn .type)).Checks qs := checks_clause?_of_nil _ _ rfl (checks_typeIn _)
  have himplements {qs : List Part} : (clause? .implementsKw .implementsClause .interfaces
      typeList).Checks qs := checks_clause?_of_nil _ _ rfl checks_typeList
  simp [classBody, hbody, hextends, himplements]

theorem checks_interfaceBody : interfaceBody.Checks ps := by
  have hbody {qs : List Part} : (memberBody .interfaceBody).Checks qs := checks_memberBody rfl
  have hextends {qs : List Part} : (clause? .extendsKw .extendsClause .superclass
      typeList).Checks qs := checks_clause?_of_nil _ _ rfl checks_typeList
  simp [interfaceBody, hbody, hextends]

theorem checks_functionBody : functionBody.Checks ps := by
  simp [functionBody]

theorem checks_declarators (r : Restrictions) : (declarators r).Checks ps := by
  have hasked : View.required .variableDeclarator = [.node .name (.only .ident)] := rfl
  simp [declarators, answers_iff hasked]

theorem checks_variableBody (keyword : Kind) : (variableBody keyword).Checks ps := by
  simp [variableBody, checks_declarators]

theorem checks_namespaceBody : namespaceBody.Checks ps := by
  simp [namespaceBody]

/-- The declaration that a keyword introduces can answer, with what stands in front of the
keyword. -/
theorem flow_declarationBody (keyword : Kind) (hps : Part.Adds headSlots [] ps) :
    (declarationBody keyword).Flow ps Answers := by
  refine flow_bind.2 (flow_modifiers keyword fun qs hqs => ?_)
  replace hqs := hps.trans hqs
  split
  · exact flow_classBody hqs
  · exact flow_interfaceBody hqs
  · exact flow_functionBody hqs
  · exact flow_of_forall (fun _ rs => Answers.of_required_nil rfl rs) (variableBody .constKw) qs
  · exact flow_namespaceBody hqs
  · exact flow_of_forall (fun _ rs => Answers.of_required_nil rfl rs) (variableBody .varKw) qs

theorem checks_declarationBody (keyword : Kind) : (declarationBody keyword).Checks ps := by
  refine ⟨checks_modifiers keyword, flow_of_forall (fun _ qs => ?_) _ _⟩
  dsimp only
  split <;> simp [checks_classBody, checks_interfaceBody, checks_functionBody, checks_variableBody,
    checks_namespaceBody]

/-- What a keyword introduces is a declaration. -/
theorem yields_declarationBody (keyword : Kind) :
    (declarationBody keyword).Yields fun kind => Family.declaration.admits kind = true := by
  unfold declarationBody
  refine yields_bind.2 (.of_forall (fun _ => ?_) _)
  split <;> exact .of_forall (fun _ => rfl) _

theorem flow_declaration (keyword : Kind)
    (h : ∀ kind, Family.declaration.admits kind = true → Q () (.node kind none :: ps)) :
    (declaration keyword).Flow ps Q :=
  (yields_declarationBody keyword).mono fun kind hkind _ => h kind hkind

theorem checks_declaration (keyword : Kind) : (declaration keyword).Checks ps := by
  refine checks_node.2
    ⟨⟨checks_declarationBody keyword, flow_of_forall (fun _ _ => trivial) _ _⟩, ?_⟩
  exact (flow_declarationBody keyword (.refl _ _)).mono fun _ _ h _ => h

theorem flow_annotated
    (h : ∀ kind, Family.declaration.admits kind = true → Q () (.node kind none :: ps)) :
    annotated.Flow ps Q := by
  refine flow_node.2 (yields_bind.2 (.of_forall (fun _ => yields_bind.2 ?_) _))
  refine .of_forall (fun keyword? => ?_) _
  cases keyword? with
  | some keyword => exact (yields_declarationBody keyword).mono fun kind hkind _ => h kind hkind
  | none => exact fun hne => absurd rfl hne

/-- The annotations in front of a declaration fill none of its other slots. -/
theorem checks_annotated : annotated.Checks ps := by
  have hnext {qs : List Part} {P : Option Kind → List Part → Prop} (h : ∀ keyword?, P keyword? qs) :
      nextDeclaration?.Flow qs P := flow_of_onlyLooks (Setting.onlyLooks_declarationWord? _ _) h
  have hlooks {qs : List Part} : nextDeclaration?.Checks qs :=
    checks_of_onlyLooks (Setting.onlyLooks_declarationWord? _ _)
  refine checks_node.2 ⟨⟨checks_metadataRun, flow_metadataRun fun qs hqs => ⟨hlooks, ?_⟩⟩,
    flow_bind.2 (flow_metadataRun fun qs hqs => flow_bind.2 ?_)⟩
  · refine hnext fun keyword? => ?_
    cases keyword? with
    | some keyword =>
      exact ⟨checks_declarationBody keyword, flow_of_forall (fun _ _ => trivial) _ _⟩
    | none => simp
  · refine hnext fun keyword? => ?_
    cases keyword? with
    | some keyword => exact (flow_declarationBody keyword hqs).mono fun _ _ h _ => h
    | none => exact flow_report _ _

theorem flow_variableHead
    (h : ∀ kind, Family.declaration.admits kind = true → Q () (.node kind none :: ps)) :
    variableHead.Flow ps Q := by
  refine flow_node.2 (yields_bind.2 (.of_forall (fun isConst => ?_) _))
  cases isConst <;> simp (disch := decide) [h]

theorem checks_variableHead : variableHead.Checks ps := by
  simp (disch := decide) [variableHead, checks_declarators, Answers.of_required_nil]

/-! ## Directives -/

@[simp] theorem flow_packageDeclaration :
    packageDeclaration.Flow ps Q ↔ Q () (.node .packageDecl none :: ps) := by
  simp [packageDeclaration]

@[simp] theorem checks_packageDeclaration : packageDeclaration.Checks ps := by
  have hasked : View.required .packageDecl = [.node .body (.only .block)] := rfl
  simp [packageDeclaration, answers_iff hasked]

@[simp] theorem flow_importStatement :
    importStatement.Flow ps Q ↔ Q () (.node .importStmt none :: ps) := by
  simp [importStatement]

@[simp] theorem checks_importStatement : importStatement.Checks ps := by
  have hasked : View.required .importStmt = [.node .name (.only .qualifiedName)] := rfl
  simp [importStatement, answers_iff hasked]

@[simp] theorem flow_includeDirective :
    includeDirective.Flow ps Q ↔ Q () (.node .includeDirective none :: ps) := by
  simp [includeDirective]

@[simp] theorem checks_includeDirective : includeDirective.Checks ps := by
  have hasked : View.required .includeDirective = [.node .source (.only .stringLiteral)] := rfl
  have hleaf : View.required .stringLiteral = [] := rfl
  simp [includeDirective, answers_iff hasked, Answers.of_required_nil hleaf]

@[simp] theorem flow_useNamespaceDirective :
    useNamespaceDirective.Flow ps Q ↔ Q () (.node .useNamespaceDirective none :: ps) := by
  simp [useNamespaceDirective]

/-- At least one namespace is named. -/
theorem flow_nameSpaces (h : Part.nodeIn? .nameSpace ps = none) :
    (loop do
      name .nameSpace [.comma]
      eat .comma).Flow ps fun _ qs => Part.nodeIn? .nameSpace qs = some .ident := by
  refine ⟨fun qs => Part.nodeIn? .nameSpace qs = none ∨ Part.nodeIn? .nameSpace qs = some .ident,
    .inl h, fun qs hqs => ?_⟩
  rcases hqs with hqs | hqs <;> simp [hqs]

@[simp] theorem checks_useNamespaceDirective : useNamespaceDirective.Checks ps := by
  have hasked : View.required .useNamespaceDirective = [.node .nameSpace (.only .ident)] := rfl
  simp [useNamespaceDirective, answers_iff hasked, flow_nameSpaces]

/-! ## XML elements -/

@[simp] theorem flow_interpolation (field : Field) :
    (interpolation field).Flow ps Q ↔ Q () (.node .xmlExpr (some field) :: ps) := by
  simp [interpolation]

@[simp] theorem checks_interpolation (field : Field) : (interpolation field).Checks ps := by
  simp (disch := decide) [interpolation, Answers.of_required_nil]

@[simp] theorem checks_tagName : tagName.Checks ps := by
  refine ⟨checks_look _, fun g => ?_⟩
  dsimp only
  split <;> simp

@[simp] theorem checks_tagName? : tagName?.Checks ps := by
  simp [tagName?]

@[simp] theorem checks_tagAttribute : tagAttribute.Checks ps := by
  have hasked : View.required .xmlAttribute = [.token .name, .element .value] := rfl
  simp only [tagAttribute, checks_bind, checks_nodeOf, checks_take, flow_take, checks_expectIn,
    flow_expectIn, flow_bind, checks_when, flow_when, checks_look, flow_look,
    checks_label, flow_true, true_and, and_true]
  refine ⟨fun _ g => ?_, fun _ g => ?_, fun h => (by cases h)⟩
  · split <;> simp
  · split <;> simp [answers_iff hasked]

@[simp] theorem checks_attributes : attributes.Checks ps := by
  refine checks_loop fun qs => ⟨checks_look _, fun g => ?_⟩
  dsimp only
  split <;> simp

theorem flow_startTag {P : Option Text × TagEnd → List Part → Prop}
    (h : ∀ result, P result (.node .xmlStartTag (some .openTag) :: ps)) : startTag.Flow ps P := by
  simp [startTag, h]

@[simp] theorem checks_startTag : startTag.Checks ps := by
  have hasked : View.required .xmlStartTag = [] := rfl
  refine ⟨checks_node.2 ⟨by simp, Yields.flow ?_ _⟩, flow_of_forall (fun _ _ => by simp) _ _⟩
  simp [Answers.of_required_nil hasked]

theorem flow_content (h : ∀ qs, Part.Adds [.content] ps qs → Q () qs) : content.Flow ps Q := by
  refine flow_loop [.content] (fun qs => flow_bind.2 fun g => ?_) h
  dsimp only
  split <;> simp

@[simp] theorem checks_content : content.Checks ps := by
  refine checks_loop fun qs => ⟨checks_look _, fun g => ?_⟩
  dsimp only
  split <;> simp

@[simp] theorem checks_checkName (opening closing : Option Text) :
    (checkName opening closing).Checks ps := by
  unfold checkName
  split <;> simp

theorem flow_endTag (opening : Option Text)
    (h : Q () (.node .xmlEndTag (some .closeTag) :: ps)) : (endTag opening).Flow ps Q := by
  simp [endTag, h]

@[simp] theorem checks_endTag (opening : Option Text) : (endTag opening).Checks ps := by
  simp (disch := decide) [endTag, Answers.of_required_nil]

@[simp] theorem flow_elementRule :
    elementRule.Flow ps Q ↔ Q () (.node .xmlElement none :: ps) := by
  simp [elementRule]

theorem checks_elementRule : elementRule.Checks ps := by
  have hasked : View.required .xmlElement = [.node .openTag (.only .xmlStartTag)] := rfl
  refine checks_nodeOf.2 ⟨⟨checks_startTag, flow_startTag fun result => by simp⟩, ?_⟩
  refine flow_bind.2 (flow_startTag fun result => flow_when.2 ⟨fun _ => ?_, fun _ => ?_⟩)
  · refine flow_bind.2 (flow_content fun qs hqs => flow_endTag _ ?_)
    have hopen : Part.nodeIn? .openTag qs = some .xmlStartTag := hqs.nodeIn? rfl
    simp [answers_iff hasked, hopen]
  · simp [answers_iff hasked]

/-! ## Statements -/

@[simp] theorem flow_statementIn (field : Field) : (statementIn field).Flow ps Q ↔
    ∀ kind, Family.statement.admits kind = true → Q () (.node kind (some field) :: ps) := by
  simp [statementIn, Rule.role]

@[simp] theorem checks_statementIn (field : Field) : (statementIn field).Checks ps := by
  simp [statementIn]

@[simp] theorem checks_expressionStatement : expressionStatement.Checks ps := by
  have hasked : View.required .exprStmt = [.node .expression (.family .expression)] := rfl
  simp +contextual [expressionStatement, answers_iff hasked]

@[simp] theorem flow_parenthesized (field : Field) : (parenthesized field).Flow ps Q ↔
    ∀ kind, Family.expression.admits kind = true →
      Q () (.token none :: .node kind (some field) :: .token none :: ps) := by
  simp [parenthesized]

@[simp] theorem checks_parenthesized (field : Field) : (parenthesized field).Checks ps := by
  simp [parenthesized]

@[simp] theorem checks_ifStatement : ifStatement.Checks ps := by
  have hasked : View.required .ifStmt =
    [.node .condition (.family .expression), .node .consequence (.family .statement)] := rfl
  have helse : View.required .elseClause = [.node .body (.family .statement)] := rfl
  have hclause {qs : List Part} : (clause? .elseKw .elseClause .alternative
      (statementIn .body)).Checks qs :=
    checks_clause? _ _ (checks_statementIn _) (by simp +contextual [answers_iff helse])
  refine checks_nodeOf.2 ⟨by simp [hclause], ?_⟩
  simp only [flow_bind, flow_takeWord, flow_parenthesized, flow_statementIn]
  intro condition hcondition consequence hconsequence
  refine flow_clause? _ _ _ _ ?_ ?_ <;> simp [answers_iff hasked, hcondition, hconsequence]

theorem flow_clauseStatements (h : ∀ qs, Part.Adds [.body] ps qs → Q () qs) :
    clauseStatements.Flow ps Q := by
  refine flow_loop [.body] (fun qs => ?_) h
  simp

@[simp] theorem checks_clauseStatements : clauseStatements.Checks ps := by
  simp [clauseStatements]

@[simp] theorem checks_switchClause (g : Glimpse) : (switchClause g).Checks ps := by
  have hcase : View.required .caseClause = [.node .value (.family .expression)] := rfl
  have hdefault : View.required .defaultClause = [] := rfl
  have hvalue {kind : Kind} (hkind : Family.expression.admits kind = true) :
      clauseStatements.Flow [.token none, .node kind (some .value), .token none] fun _ qs =>
        Answers .caseClause qs := by
    refine flow_clauseStatements fun qs hqs => ?_
    have hnode : Part.nodeIn? .value qs = some kind := hqs.nodeIn? rfl
    simp [answers_iff hcase, hnode, hkind]
  simp +contextual [switchClause, hvalue, Answers.of_required_nil hdefault]

@[simp] theorem checks_switchStatement : switchStatement.Checks ps := by
  have hasked : View.required .switchStmt = [.node .value (.family .expression)] := rfl
  have hbody : View.required .switchBody = [] := rfl
  simp +contextual [switchStatement, answers_iff hasked, Answers.of_required_nil hbody]

theorem flow_forHead {P : Bool → List Part → Prop} (hnone : P false ps)
    (hsome : ∀ kind, P true (.node kind none :: ps)) : forHead.Flow ps P := by
  refine flow_bind.2 fun g => flow_ite.2 ⟨fun _ => ?_, fun _ => ?_⟩
  · exact flow_bind.2 (flow_variableHead fun kind _ => hsome kind)
  · exact flow_ite.2 ⟨fun _ => hnone, fun _ kind _ => hsome kind⟩

@[simp] theorem checks_forHead : forHead.Checks ps := by
  simp [forHead, checks_variableHead]

theorem flow_forStatement
    (h : ∀ kind, Family.statement.admits kind = true → Q () (.node kind none :: ps)) :
    forStatement.Flow ps Q := by
  refine flow_node.2 (yields_bind.2 (.of_forall (fun _ => yields_bind.2 ?_) _))
  refine .of_forall (fun each => ?_) _
  cases each <;> simp (disch := decide) [h]

@[simp] theorem checks_forStatement : forStatement.Checks ps := by
  have hfor : View.required .forStmt = [.node .body (.family .statement)] := rfl
  have hforIn : View.required .forInStmt = [.node .left .any,
    .node .right (.family .expression), .node .body (.family .statement)] := rfl
  have hforEach : View.required .forEachInStmt = [.node .left .any,
    .node .right (.family .expression), .node .body (.family .statement)] := rfl
  refine checks_node.2 ⟨by simp, flow_bind.2 (flow_bind.2 (flow_eatWord _ ?_ ?_))⟩
  all_goals refine flow_bind.2 ((flow_expect _).2 (flow_bind.2 (flow_forHead ?_ fun head => ?_)))
  all_goals simp +contextual [answers_iff hfor, answers_iff hforIn, answers_iff hforEach]

@[simp] theorem checks_whileStatement : whileStatement.Checks ps := by
  have hasked : View.required .whileStmt =
    [.node .condition (.family .expression), .node .body (.family .statement)] := rfl
  simp +contextual [whileStatement, answers_iff hasked]

@[simp] theorem checks_doStatement : doStatement.Checks ps := by
  have hasked : View.required .doStmt =
    [.node .body (.family .statement), .node .condition (.family .expression)] := rfl
  refine checks_nodeOf.2 ⟨by simp, ?_⟩
  simp only [flow_bind, flow_takeWord, flow_statementIn]
  refine fun body hbody => flow_expectWord ?_
  simp +contextual [answers_iff hasked, hbody]

@[simp] theorem checks_withStatement : withStatement.Checks ps := by
  have hasked : View.required .withStmt =
    [.node .object (.family .expression), .node .body (.family .statement)] := rfl
  simp +contextual [withStatement, answers_iff hasked]

@[simp] theorem flow_bodyBlock :
    bodyBlock.Flow ps Q ↔ Q () (.node .block (some .body) :: ps) := by
  simp [bodyBlock]

@[simp] theorem checks_bodyBlock : bodyBlock.Checks ps := by
  simp [bodyBlock]

@[simp] theorem flow_catchClause :
    catchClause.Flow ps Q ↔ Q () (.node .catchClause (some .handler) :: ps) := by
  simp [catchClause]

@[simp] theorem checks_catchClause : catchClause.Checks ps := by
  have hasked : View.required .catchClause =
    [.node .parameter (.only .ident), .node .body (.only .block)] := rfl
  simp [catchClause, answers_iff hasked]

theorem flow_catchClauses (h : ∀ qs, Part.Adds [.handler] ps qs → Q () qs) :
    catchClauses.Flow ps Q :=
  flow_loop [.handler] (fun qs => by simp) h

@[simp] theorem checks_catchClauses : catchClauses.Checks ps := by
  simp [catchClauses]

@[simp] theorem checks_tryStatement : tryStatement.Checks ps := by
  have hasked : View.required .tryStmt = [.node .body (.only .block)] := rfl
  have hfinally : View.required .finallyClause = [.node .body (.only .block)] := rfl
  have hclause {qs : List Part} : (clause? .finallyKw .finallyClause .finalizer
      bodyBlock).Checks qs :=
    checks_clause? _ _ checks_bodyBlock (by simp [answers_iff hfinally])
  refine checks_nodeOf.2 ⟨by simp [hclause], ?_⟩
  simp only [flow_bind, flow_takeWord, flow_bodyBlock, flow_seesWord]
  refine ⟨flow_catchClauses fun qs hqs => ?_, flow_catchClauses fun qs hqs => ?_⟩
  all_goals
    have hbody : Part.nodeIn? .body qs = some .block := hqs.nodeIn? rfl
    refine ⟨flow_clause? _ _ _ _ ?_ ?_, flow_clause? _ _ _ _ ?_ ?_⟩
  all_goals simp [answers_iff hasked, hbody]

theorem checks_jumpStatement {kind : Kind} (keyword : Kind) (hasked : View.required kind = []) :
    (jumpStatement keyword kind).Checks ps := by
  simp [jumpStatement, Answers.of_required_nil hasked]

theorem checks_valueStatement {kind : Kind} (keyword : Kind) (hasked : View.required kind = []) :
    (valueStatement keyword kind).Checks ps := by
  simp [valueStatement, Answers.of_required_nil hasked]

@[simp] theorem checks_labeledStatement : labeledStatement.Checks ps := by
  have hasked : View.required .labeledStmt =
    [.node .label (.only .ident), .node .body (.family .statement)] := rfl
  simp +contextual [labeledStatement, answers_iff hasked]

theorem flow_plainWordStatement
    (h : ∀ kind, Family.statement.admits kind = true → Q () (.node kind none :: ps)) :
    plainWordStatement.Flow ps Q := by
  have hnext {P : Option Kind → List Part → Prop} (h : ∀ keyword?, P keyword? ps) :
      nextDeclaration?.Flow ps P := flow_of_onlyLooks (Setting.onlyLooks_declarationWord? _ _) h
  refine flow_bind.2 (hnext fun keyword? => ?_)
  cases keyword? with
  | some keyword =>
    exact flow_declaration keyword fun kind hkind => h kind (Family.statement_of_declaration hkind)
  | none => simp (disch := decide) [labeledStatement, expressionStatement, h]

@[simp] theorem checks_plainWordStatement : plainWordStatement.Checks ps := by
  refine ⟨checks_of_onlyLooks (Setting.onlyLooks_declarationWord? _ _),
    flow_of_onlyLooks (Setting.onlyLooks_declarationWord? _ _) fun keyword? => ?_⟩
  cases keyword? with
  | some keyword => exact checks_declaration keyword
  | none => simp

theorem flow_wordStatement (g : Glimpse)
    (h : ∀ kind, Family.statement.admits kind = true → Q () (.node kind none :: ps)) :
    (wordStatement g).Flow ps Q := by
  have hplain : plainWordStatement.Flow ps Q := flow_plainWordStatement h
  have hfor : forStatement.Flow ps Q := flow_forStatement h
  unfold wordStatement
  split <;> simp (disch := decide) [ifStatement, switchStatement, whileStatement, doStatement,
    withStatement, tryStatement, jumpStatement, valueStatement, hplain, hfor, h]

@[simp] theorem checks_wordStatement (g : Glimpse) : (wordStatement g).Checks ps := by
  unfold wordStatement
  split <;> simp (disch := decide) [checks_jumpStatement, checks_valueStatement]

theorem flow_statementRule
    (h : ∀ kind, Family.statement.admits kind = true → Q () (.node kind none :: ps)) :
    statementRule.Flow ps Q := by
  have hexpression : expressionStatement.Flow ps Q := flow_nodeOf.2 fun _ => h _ rfl
  refine flow_bind.2 fun g => ?_
  dsimp only
  split
  case h_3 =>
    refine flow_bind.2
      (flow_of_onlyLooks Setting.onlyLooks_seesAnnotatedDeclaration fun value => ?_)
    refine flow_ite.2 ⟨fun _ => flow_annotated fun kind hkind => ?_, fun _ => hexpression⟩
    exact h kind (Family.statement_of_declaration hkind)
  case h_4 => exact flow_wordStatement g h
  all_goals simp (disch := decide) [h, hexpression]

theorem checks_statementRule : statementRule.Checks ps := by
  refine ⟨checks_look _, fun g => ?_⟩
  dsimp only
  split
  case h_3 =>
    refine ⟨checks_of_onlyLooks Setting.onlyLooks_seesAnnotatedDeclaration,
      flow_of_onlyLooks Setting.onlyLooks_seesAnnotatedDeclaration fun value => ?_⟩
    simp [checks_annotated]
  all_goals simp (disch := decide) [Answers.of_required_nil]

/-- **Every rule makes one node, in its role.** -/
theorem flow_rule (rule : Rule) :
    (Grammar.rule rule).Flow ps fun _ qs => rule.role.Made ps qs := by
  cases rule with
  | statement => exact flow_statementRule fun kind hkind => ⟨kind, hkind, rfl⟩
  | expression min r => exact flow_expressionRule min r fun kind hkind => ⟨kind, hkind, rfl⟩
  | unary => exact flow_unaryRule fun kind hkind => ⟨kind, hkind, rfl⟩
  | construction => exact flow_constructionRule fun kind hkind => ⟨kind, hkind, rfl⟩
  | type => exact flow_typeRule fun kind hkind => ⟨kind, hkind, rfl⟩
  | element => exact flow_elementRule.2 ⟨.xmlElement, rfl, rfl⟩

/-- **The nodes of every rule can answer.** -/
theorem checks_rule (rule : Rule) : (Grammar.rule rule).Checks ps := by
  cases rule with
  | statement => exact checks_statementRule
  | expression min r => exact checks_expressionRule min r
  | unary => exact checks_unaryRule
  | construction => exact checks_constructionRule
  | type => exact checks_typeRule
  | element => exact checks_elementRule

end ActionScript.Grammar
