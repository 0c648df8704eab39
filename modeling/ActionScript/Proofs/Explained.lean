import ActionScript.Proofs.Credit
import ActionScript.Proofs.Outcome
import ActionScript.Proofs.Routines

/-!
# Every error is explained

All routines of the grammar pay for their error nodes, so a parse makes no more of them than it
reports.

* `pays_rule`, `pays_sourceFile`: the routines pay, whatever credit they begin with.
* `Setting.solvent_atDepth`: the rules keep the accounts, at every depth.
* `errors_explained`: **every error node of a tree can be given a diagnostic of its own**, and the
  signs of an error agree.
-/

set_option autoImplicit false

namespace ActionScript

/-! ## The common pieces -/

namespace Kind

theorem ne_unknown_of_isKeyword {k : Kind} (h : k.isKeyword = true) : k ≠ .unknown := by
  rintro rfl
  cases h

theorem ne_unknown_of_ofWord? {word : Text} {k : Kind} (h : ofWord? word = some k) :
    k ≠ .unknown := by
  have hmem := List.mem_of_find?_eq_some h
  exact ne_unknown_of_isKeyword (List.mem_filter.1 hmem).2

end Kind

namespace Parser

variable {c : Credit}

@[simp] theorem pays_peek : peek.Pays c := by simp [peek]
@[simp] theorem pays_sees (kind : Kind) : (sees kind).Pays c := by simp [sees]
@[simp] theorem pays_seesIn (mode : Mode) (kind : Kind) : (seesIn mode kind).Pays c := by
  simp [seesIn]
@[simp] theorem pays_seesWord (word : String) : (seesWord word).Pays c := by simp [seesWord]
@[simp] theorem pays_leaf {kind : Kind} :
    (leaf kind).Pays c ↔ (kind = .error → c.taken = .report) := by simp [leaf]
@[simp] theorem pays_wordLeaf {keyword kind : Kind} (hkeyword : keyword ≠ .unknown)
    (hkind : kind ≠ .error) : (wordLeaf keyword kind).Pays c := by
  simp [wordLeaf, hkeyword, hkind]
@[simp] theorem pays_eat (kind : Kind) : (eat kind).Pays c := by simp [eat]
@[simp] theorem pays_eatWord {keyword : Kind} (h : keyword ≠ .unknown) :
    (eatWord keyword).Pays c := by simp [eatWord, h]
@[simp] theorem pays_missing (error : SyntaxError) : (missing error).Pays c := by simp [missing]
@[simp] theorem pays_reject (error : SyntaxError) : (reject error).Pays c := by
  simp [reject, Credit.taken]
@[simp] theorem pays_rejectUnless (stops : KindSet) (error : SyntaxError) :
    (rejectUnless stops error).Pays c := by simp [rejectUnless]
@[simp] theorem pays_expectIn (mode : Mode) (kind : Kind) : (expectIn mode kind).Pays c := by
  simp [expectIn]
@[simp] theorem pays_expect (kind : Kind) : (expect kind).Pays c := by simp [expect]
@[simp] theorem pays_expectWord {keyword : Kind} (h : keyword ≠ .unknown) :
    (expectWord keyword).Pays c := by
  simp [expectWord, h]
@[simp] theorem pays_callIn (field : Field) (rule : Rule) : (callIn field rule).Pays c := by
  simp [callIn]

theorem pays_of_onlyLooks {α : Type} {p : Parser α} (h : p.OnlyLooks) : p.Pays c := by
  induction p generalizing c with
  | andThen first next ihFirst ihNext => exact ⟨ihFirst h.1, fun value => ihNext value (h.2 value)⟩
  | done value => trivial
  | ahead distance => trivial
  | _ => exact h.elim

end Parser

namespace Grammar

open ActionScript.Parser

variable {c : Credit}

/-! ## Names, lists and types -/

@[simp] theorem pays_name (field : Field) (stops : List Kind) : (name field stops).Pays c := by
  simp [name]

@[simp] theorem pays_qualifiedName (field : Field) (wildcard : Bool) :
    (qualifiedName field wildcard).Pays c := by
  simp [qualifiedName, nameTail]

@[simp] theorem pays_delimited (b : Brackets) {item : Parser Bool} (h : ∀ c, item.Pays c) :
    (delimited b item).Pays c := by
  simp [delimited, h]

/-- What is skipped has been reported. -/
@[simp] theorem pays_semicolon : semicolon.Pays c := by
  simp [semicolon, skipStatement, Credit.kept]

@[simp] theorem pays_braced {kind : Kind} (h : kind ≠ .error) : (braced kind).Pays c := by
  simp [braced, statements, h]

@[simp] theorem pays_block : block.Pays c := pays_braced (by decide)

@[simp] theorem pays_expression (field : Field) : (expression field).Pays c := by
  simp [expression]

@[simp] theorem pays_assignment (field : Field) : (assignment field).Pays c := by
  simp [assignment]

@[simp] theorem pays_typeAscription? (field : Field) : (typeAscription? field).Pays c := by
  simp [typeAscription?, typeAscription, typeIn]

@[simp] theorem pays_typeArguments : typeArguments.Pays c := by
  simp [typeArguments, typeIn]

@[simp] theorem pays_typeName : typeName.Pays c := by
  simp [typeName]

theorem pays_typeRule : typeRule.Pays c := by
  refine ⟨pays_look _, fun g => ?_⟩
  dsimp only
  split <;> simp

@[simp] theorem pays_parameter : parameter.Pays c := by
  simp [parameter]

@[simp] theorem pays_restParameter : restParameter.Pays c := by
  simp [restParameter]

@[simp] theorem pays_parameterList : parameterList.Pays c := by
  simp only [parameterList, pays_bind, pays_nodeOf, pays_take, pays_loop, pays_peek, pays_expect,
    pays_label, true_and, and_true, implies_true]
  refine ⟨fun _ k => ?_, by simp⟩
  split <;> simp

@[simp] theorem pays_signature : signature.Pays c := by
  simp [signature]

/-! ## Operands -/

@[simp] theorem pays_arguments : arguments.Pays c := by
  simp [arguments]

@[simp] theorem pays_elements : elements.Pays c := by
  simp [elements]

@[simp] theorem pays_property? : property?.Pays c := by
  refine ⟨pays_peek, fun k => pays_ite.2 ⟨fun _ => ⟨pays_nodeOf.2 ⟨?_, by simp⟩, ?_⟩, ?_⟩⟩
  · refine ⟨pays_leaf.2 ?_, by simp⟩
    split <;> simp
  · simp
  · simp

@[simp] theorem pays_objectLiteral : objectLiteral.Pays c := by
  simp [objectLiteral]

@[simp] theorem pays_vectorBody : vectorBody.Pays c := by
  simp [vectorBody, typeIn]

@[simp] theorem pays_functionExpression : functionExpression.Pays c := by
  simp [functionExpression]

@[simp] theorem pays_wordOperand (g : Glimpse) : (wordOperand g).Pays c := by
  unfold wordOperand
  split <;> simp

/-- An operand without a reading is reported with its flaw. -/
@[simp] theorem pays_operand : operand.Pays c := by
  have hvector {c : Credit} : opensVector.Pays c :=
    pays_of_onlyLooks (Setting.onlyLooks_closesVector _ _ _)
  refine ⟨pays_look _, fun g => ?_⟩
  dsimp only
  split
  case h_9 hunknown => simp [credit, hunknown, Credit.taken]
  all_goals simp [hvector]

@[simp] theorem pays_propertyName : propertyName.Pays c := by
  refine ⟨pays_peek, fun k => ⟨?_, fun _ => pays_label _⟩⟩
  split <;> simp

@[simp] theorem pays_link (calls : Bool) : (link calls).Pays c := by
  refine ⟨pays_look _, fun g => ?_⟩
  dsimp only
  split <;> simp

@[simp] theorem pays_chain (calls : Bool) : (chain calls).Pays c := by
  simp [chain]

theorem pays_constructionRule : constructionRule.Pays c := by
  simp [constructionRule]

@[simp] theorem pays_chained : chained.Pays c := by
  simp [chained]

@[simp] theorem pays_takeOperator (op : Kind) : (takeOperator op).Pays c := by
  simp only [takeOperator, pays_ite, pays_takeWord, pays_take, implies_true, and_true]
  exact Kind.ne_unknown_of_isKeyword

theorem pays_unaryRule : unaryRule.Pays c := by
  refine ⟨pays_look _, fun g => ?_⟩
  dsimp only
  split <;> simp [ite_eq_iff]

@[simp] theorem pays_operation (op : Kind) (p : Precedence) (r : Restrictions) :
    (operation op p r).Pays c := by
  unfold operation
  split <;> simp

@[simp] theorem ends_operation (op : Kind) (p : Precedence) (r : Restrictions) :
    (operation op p r).Ends c id := by
  unfold operation
  split <;> simp [ite_eq_iff]

theorem pays_expressionRule (min : Precedence) (r : Restrictions) :
    (expressionRule min r).Pays c := by
  refine ⟨pays_call _, fun _ => pays_loop.2 ⟨pays_look _, fun g => ?_⟩⟩
  dsimp only
  split <;> simp

/-! ## Elements -/

@[simp] theorem pays_interpolation (field : Field) : (interpolation field).Pays c := by
  simp [interpolation]

@[simp] theorem pays_tagName : tagName.Pays c := by
  refine ⟨pays_look _, fun g => ?_⟩
  dsimp only
  split <;> simp

@[simp] theorem pays_tagName? : tagName?.Pays c := by
  simp [tagName?]

@[simp] theorem pays_tagAttribute : tagAttribute.Pays c := by
  simp only [tagAttribute, pays_bind, pays_nodeOf, pays_take, pays_expectIn, pays_when,
    pays_look, pays_label, true_and, and_true, implies_true]
  refine ⟨fun _ _ _ g => ?_, by simp⟩
  split <;> simp

@[simp] theorem pays_attributes : attributes.Pays c := by
  refine ⟨pays_look _, fun g => ?_⟩
  dsimp only
  split <;> simp

@[simp] theorem pays_startTag : startTag.Pays c := by
  simp [startTag]

@[simp] theorem pays_content : content.Pays c := by
  refine ⟨pays_look _, fun g => ?_⟩
  dsimp only
  split <;> simp

@[simp] theorem pays_checkName (opening closing : Option Text) :
    (checkName opening closing).Pays c := by
  unfold checkName
  split <;> simp

@[simp] theorem pays_endTag (opening : Option Text) : (endTag opening).Pays c := by
  simp [endTag]

theorem pays_elementRule : elementRule.Pays c := by
  simp [elementRule]

/-! ## Declarations -/

@[simp] theorem pays_nextDeclaration? : nextDeclaration?.Pays c :=
  pays_of_onlyLooks (Setting.onlyLooks_declarationWord? _ _)

@[simp] theorem pays_behindMetadata? (i : Nat) : (behindMetadata? i).Pays c :=
  pays_of_onlyLooks (Setting.onlyLooks_behindMetadata? i)

@[simp] theorem pays_metadataArgument? : metadataArgument?.Pays c := by
  simp [metadataArgument?]

@[simp] theorem pays_metadataRun : metadataRun.Pays c := by
  simp [metadataRun, metadata]

@[simp] theorem pays_modifier {kind : Kind} (h : kind ≠ .error) (g : Glimpse) :
    (modifier kind g).Pays c := by
  unfold modifier
  split
  · rename_i keyword hword
    exact pays_wordLeaf (Kind.ne_unknown_of_ofWord? hword) h
  · simp [h]

@[simp] theorem pays_modifiers (keyword : Kind) : (modifiers keyword).Pays c := by
  simp [modifiers]

@[simp] theorem pays_memberBody {kind : Kind} (h : kind ≠ .error) : (memberBody kind).Pays c := by
  simp [memberBody, h]

@[simp] theorem pays_clause? {keyword kind : Kind} (hkeyword : keyword ≠ .unknown)
    (hkind : kind ≠ .error) (field : Field) {body : Parser Unit} (hbody : ∀ c, body.Pays c) :
    (clause? keyword kind field body).Pays c := by
  simp [clause?, hkeyword, hkind, hbody]

@[simp] theorem pays_typeList : typeList.Pays c := by
  simp [typeList, typeIn]

@[simp] theorem pays_classBody : classBody.Pays c := by
  simp [classBody, typeIn]

@[simp] theorem pays_interfaceBody : interfaceBody.Pays c := by
  simp [interfaceBody]

@[simp] theorem pays_functionBody : functionBody.Pays c := by
  simp [functionBody, accessor]

@[simp] theorem pays_declarators (r : Restrictions) : (declarators r).Pays c := by
  simp [declarators]

@[simp] theorem pays_variableBody {keyword : Kind} (h : keyword ≠ .unknown) :
    (variableBody keyword).Pays c := by
  simp [variableBody, h]

@[simp] theorem pays_namespaceBody : namespaceBody.Pays c := by
  simp [namespaceBody]

@[simp] theorem pays_declarationBody (keyword : Kind) : (declarationBody keyword).Pays c := by
  refine ⟨pays_modifiers keyword, fun _ => ?_⟩
  split <;> simp

/-- A declaration is no error node, so nothing has to hold if it is one. -/
theorem declarationBody_ne_error (keyword : Kind) (P : Kind → Prop) :
    (declarationBody keyword).Yields fun kind => kind = .error → P kind := by
  unfold declarationBody
  rw [yields_bind]
  refine .of_forall (fun _ => ?_) _
  split <;> simp

@[simp] theorem pays_declaration (keyword : Kind) : (declaration keyword).Pays c := by
  refine ⟨⟨pays_declarationBody keyword, fun _ => trivial⟩, ?_⟩
  exact declarationBody_ne_error keyword _

/-- Annotations without a declaration behind them are an error node, which is reported. -/
@[simp] theorem pays_annotated : annotated.Pays c := by
  rw [annotated, pays_node, pays_bind, ends_bind]
  refine ⟨⟨pays_metadataRun, fun _ => ⟨pays_nextDeclaration?, fun k => ?_⟩⟩,
    .of_forall (fun _ => .of_forall (fun k => ?_) _) _⟩
  · dsimp only
    split <;> simp
  · dsimp only
    split
    · rename_i keyword
      exact declarationBody_ne_error keyword _
    · simp

@[simp] theorem pays_variableHead : variableHead.Pays c := by
  simp [variableHead, ite_eq_iff]

@[simp] theorem pays_packageDeclaration : packageDeclaration.Pays c := by
  simp [packageDeclaration]

@[simp] theorem pays_importStatement : importStatement.Pays c := by
  simp [importStatement]

@[simp] theorem pays_includeDirective : includeDirective.Pays c := by
  simp [includeDirective]

@[simp] theorem pays_useNamespaceDirective : useNamespaceDirective.Pays c := by
  simp [useNamespaceDirective]

/-! ## Statements -/

@[simp] theorem pays_statementIn (field : Field) : (statementIn field).Pays c := by
  simp [statementIn]

@[simp] theorem pays_expressionStatement : expressionStatement.Pays c := by
  simp [expressionStatement]

@[simp] theorem pays_parenthesized (field : Field) : (parenthesized field).Pays c := by
  simp [parenthesized]

@[simp] theorem pays_ifStatement : ifStatement.Pays c := by
  simp [ifStatement]

@[simp] theorem pays_switchClause (g : Glimpse) : (switchClause g).Pays c := by
  simp [switchClause, clauseStatements]

@[simp] theorem pays_switchStatement : switchStatement.Pays c := by
  simp [switchStatement]

@[simp] theorem pays_forStatement : forStatement.Pays c := by
  simp [forStatement, forHead, ite_eq_iff]

@[simp] theorem pays_whileStatement : whileStatement.Pays c := by
  simp [whileStatement]

@[simp] theorem pays_doStatement : doStatement.Pays c := by
  simp [doStatement]

@[simp] theorem pays_withStatement : withStatement.Pays c := by
  simp [withStatement]

@[simp] theorem pays_bodyBlock : bodyBlock.Pays c := by
  simp [bodyBlock]

@[simp] theorem pays_tryStatement : tryStatement.Pays c := by
  simp [tryStatement, catchClauses, catchClause]

@[simp] theorem pays_jumpStatement {keyword kind : Kind} (hkeyword : keyword ≠ .unknown)
    (hkind : kind ≠ .error) : (jumpStatement keyword kind).Pays c := by
  simp [jumpStatement, hkeyword, hkind]

@[simp] theorem pays_valueStatement {keyword kind : Kind} (hkeyword : keyword ≠ .unknown)
    (hkind : kind ≠ .error) : (valueStatement keyword kind).Pays c := by
  simp [valueStatement, hkeyword, hkind]

@[simp] theorem pays_plainWordStatement : plainWordStatement.Pays c := by
  refine ⟨pays_nextDeclaration?, fun k => ?_⟩
  dsimp only
  split <;> simp [labeledStatement]

@[simp] theorem pays_wordStatement (g : Glimpse) : (wordStatement g).Pays c := by
  unfold wordStatement
  split <;> simp

theorem pays_statementRule : statementRule.Pays c := by
  have hannotated {c : Credit} : seesAnnotatedDeclaration.Pays c :=
    pays_of_onlyLooks Setting.onlyLooks_seesAnnotatedDeclaration
  refine ⟨pays_look _, fun g => ?_⟩
  dsimp only
  split <;> simp [hannotated]

theorem pays_sourceFile : sourceFile.Pays c := by
  simp [sourceFile]

/-- **Every rule pays for its error nodes.** -/
theorem pays_rule (rule : Rule) : (Grammar.rule rule).Pays c := by
  cases rule with
  | statement => exact pays_statementRule
  | expression min r => exact pays_expressionRule min r
  | unary => exact pays_unaryRule
  | construction => exact pays_constructionRule
  | type => exact pays_typeRule
  | element => exact pays_elementRule

end Grammar

/-! ## At every depth -/

namespace Setting

/-- **The rules keep the accounts**, at every depth. -/
theorem solvent_atDepth [Alphabet] (limits : Limits) (depth : Nat) :
    (atDepth limits depth).Solvent := by
  induction depth with
  | zero =>
    have hgiven : (givingUp limits).Solvent := fun rule s h => (by cases h)
    intro rule s ha
    change (State.apply limits 0 rule s).aborted = none at ha
    change s.Accounts .nothing (State.apply limits 0 rule s) .nothing
    rw [apply_zero] at ha ⊢
    exact (accounts_after hgiven _ (State.Accounts.has_nothing s) (Parser.pays_reject _) ha).1.drop
  | succ depth ih =>
    intro rule s ha
    rw [atDepth_succ] at ha ⊢
    exact (accounts_after ih _ (State.Accounts.has_nothing s) (Grammar.pays_rule rule) ha).1.drop

end Setting

/-- A parse that is not stopped keeps the accounts. -/
theorem State.accounts_run [Alphabet] {limits : Limits} {text : Text}
    (ha : (State.run limits text).aborted = none) :
    (State.start text).Accounts .nothing (State.run limits text) .nothing :=
  (Setting.accounts_after (Setting.solvent_atDepth limits limits.maxDepth) Grammar.sourceFile
    (Accounts.has_nothing _) Grammar.pays_sourceFile ha).1.drop

/-! ## Errors in trees -/

namespace Shape

mutual

theorem hasErrors_iff (s : Shape) :
    s.hasErrors = true ↔ 0 < errorNodes [s] ∨ 0 < unknownTokens [s] := by
  cases s with
  | token kind field leading text trailing =>
    rw [hasErrors, beq_iff_eq, errorNodes_token, unknownTokens_token]
    split <;> simp [*]
  | node kind field children =>
    rw [hasErrors, Bool.or_eq_true, beq_iff_eq, hasErrorsAll_iff children, errorNodes_node,
      unknownTokens_node]
    split
    · simp only [*, true_or, true_iff]
      omega
    · simp [*]

/-- Shapes hold an error if they hold an error node or a token without a reading. -/
theorem hasErrorsAll_iff (ss : List Shape) :
    hasErrorsAll ss = true ↔ 0 < errorNodes ss ∨ 0 < unknownTokens ss := by
  cases ss with
  | nil => simp [hasErrorsAll]
  | cons s ss =>
    rw [hasErrorsAll, Bool.or_eq_true, hasErrors_iff s, hasErrorsAll_iff ss, errorNodes_cons s ss,
      unknownTokens_cons s ss]
    omega

end

end Shape

namespace Tree

namespace Node

mutual

theorem countP_nodesOf (k : Kind) (n : Node) (slot : Nat) (p : Progress) (s : Shape) :
    (n.nodesOf slot (p.lay s).1).countP (·.kind == k) =
      s.tally (fun kind => if kind = k then 1 else 0) fun _ => 0 := by
  cases s with
  | token kind field leading text trailing =>
    rw [Progress.lay, nodesOf, Shape.tally]
    rfl
  | node kind field children =>
    rw [Progress.lay, nodesOf, Shape.tally, List.countP_cons, countP_nodesFrom k, Nat.add_comm]
    simp [Node.kind, child, Progress.info]

/-- The nodes of a kind below laid out shapes are those in the shapes. -/
theorem countP_nodesFrom (k : Kind) (n : Node) (slot : Nat) (p : Progress) (ss : List Shape) :
    (n.nodesFrom slot (p.layAll ss).1).countP (·.kind == k) =
      Shape.tallyAll (fun kind => if kind = k then 1 else 0) (fun _ => 0) ss := by
  cases ss with
  | nil =>
    rw [Progress.layAll, nodesFrom, Shape.tallyAll]
    rfl
  | cons s ss =>
    rw [Progress.layAll, nodesFrom, Shape.tallyAll, List.countP_append, countP_nodesOf k,
      countP_nodesFrom k]

end

mutual

theorem countP_tokensOf {k : Kind} (hk : k.isTrivia = false) (n : Node) (slot : Nat) (p : Progress)
    (s : Shape) : (n.tokensOf slot (p.lay s).1).countP (·.kind == k) =
      s.tally (fun _ => 0) fun kind => if kind = k then 1 else 0 := by
  cases s with
  | token kind field leading text trailing =>
    obtain ⟨hlead, hkind, -, -, -, htrail⟩ :=
      (p.shows_cluster kind field leading text trailing).1
    have hnone {ls : List Leaf} (hls : ∀ l ∈ ls, l.kind.isTrivia = true) :
        (ls.map n.trivia).countP (·.kind == k) = 0 := by
      rw [List.countP_eq_zero]
      intro t ht heq
      obtain ⟨l, hl, rfl⟩ := List.mem_map.1 ht
      obtain rfl : l.kind = k := eq_of_beq heq
      rw [hls l hl] at hk
      cases hk
    rw [Progress.lay, tokensOf, clusterTokens, Shape.tally, List.countP_append, List.countP_cons,
      hnone hlead.isTrivia, hnone htrail.isTrivia, Nat.zero_add, Nat.zero_add]
    simp [Token.kind, token, hkind]
  | node kind field children =>
    rw [Progress.lay, tokensOf, Shape.tally, countP_tokensFrom hk, Nat.zero_add]

/-- The tokens of a kind below laid out shapes are those in the shapes, if it is no kind of
trivia. -/
theorem countP_tokensFrom {k : Kind} (hk : k.isTrivia = false) (n : Node) (slot : Nat)
    (p : Progress) (ss : List Shape) : (n.tokensFrom slot (p.layAll ss).1).countP (·.kind == k) =
      Shape.tallyAll (fun _ => 0) (fun kind => if kind = k then 1 else 0) ss := by
  cases ss with
  | nil =>
    rw [Progress.layAll, tokensFrom, Shape.tallyAll]
    rfl
  | cons s ss =>
    rw [Progress.layAll, tokensFrom, Shape.tallyAll, List.countP_append, countP_tokensOf hk,
      countP_tokensFrom hk]

end

end Node

/-- The error nodes of a tree. -/
def errorNodes (t : Tree) : List Node := t.root.descendants.filter fun n => n.kind == .error

/-- The tokens of a tree that have no reading. -/
def unknownTokens (t : Tree) : List Token := t.tokens.filter fun t => t.kind == .unknown

theorem length_errorNodes_ofStem (text : Text) (root : Stem) :
    (ofStem text root).errorNodes.length = Shape.errorNodes [root.shape] := by
  have hbelow := Node.countP_nodesFrom .error (ofStem text root).root 0 { nodes := 1 }
    root.children.reverse
  have hroot : (ofStem text root).root.kind = root.kind := rfl
  rw [errorNodes, ← List.countP_eq_length_filter, Node.descendants, List.countP_cons, hroot,
    Stem.shape, Shape.errorNodes_node, Nat.add_comm]
  simp only [beq_iff_eq]
  exact congrArg _ hbelow

theorem length_unknownTokens_ofStem (text : Text) (root : Stem) :
    (ofStem text root).unknownTokens.length = Shape.unknownTokens [root.shape] := by
  have hbelow := Node.countP_tokensFrom (k := .unknown) rfl (ofStem text root).root 0 { nodes := 1 }
    root.children.reverse
  rw [unknownTokens, ← List.countP_eq_length_filter, Stem.shape, Shape.unknownTokens_node]
  exact hbelow

end Tree

/-! ## Every parse -/

/-- The diagnostics of a parse that are about tokens. -/
def Parse.lexicalDiagnostics (p : Parse) : List Diagnostic :=
  p.diagnostics.filter fun d => d.cause.category == .lexical

/-- **Every error is explained, and the signs of an error agree.**  Of a parse that gives a tree,
each error node can be given a diagnostic of its own, and there are no more tokens without a reading
than diagnostics about tokens.  The tree says that it has errors exactly if it has an error node or
a token without a reading, and the parse says so exactly if there is a diagnostic. -/
theorem errors_explained [Alphabet] {limits : Limits} {text : Text} {p : Parse}
    (h : parseWithin limits text = .ok p) :
    (∃ explains : Fin p.tree.errorNodes.length → Fin p.diagnostics.length,
      Function.Injective explains) ∧
    p.tree.unknownTokens.length ≤ p.lexicalDiagnostics.length ∧
    (p.tree.hasErrors = true ↔ p.tree.errorNodes ≠ [] ∨ p.tree.unknownTokens ≠ []) ∧
    (p.hasErrors = true ↔ p.diagnostics ≠ []) := by
  have ha := aborted_of_parseWithin h
  obtain ⟨modes, kids, last, hout⟩ := State.run_outcome ha
  obtain ⟨-, herrors, hunknowns⟩ := State.accounts_run ha
  rw [hout.parseWithin_eq ha, Except.ok.injEq] at h
  subst h
  generalize hroot : (⟨.sourceFile, none, (kids ++
    [Shape.token .eof none last.leading last.text last.trailing]).reverse⟩ : Stem) = root
  have hchildren : (State.run limits text).children = [root.shape] := by
    rw [hout.children, ← hroot, Stem.shape, List.reverse_reverse]
  have hnodes := Tree.length_errorNodes_ofStem text root
  have htokens := Tree.length_unknownTokens_ofStem text root
  have hle : (Tree.ofStem text root).errorNodes.length ≤
      (State.run limits text).reports.reverse.length := by
    rw [hnodes, List.length_reverse, ← hchildren]
    simpa [State.start] using herrors
  have hlexical : (Tree.ofStem text root).unknownTokens.length ≤
      ((State.run limits text).reports.reverse.filter fun d =>
        d.cause.category == .lexical).length := by
    rw [List.filter_reverse, List.length_reverse, ← List.countP_eq_length_filter, htokens,
      ← hchildren]
    simpa [State.lexical, State.start] using hunknowns
  have hsigns : (Tree.ofStem text root).hasErrors = true ↔
      (Tree.ofStem text root).errorNodes ≠ [] ∨ (Tree.ofStem text root).unknownTokens ≠ [] := by
    rw [← List.length_pos_iff, ← List.length_pos_iff, hnodes, htokens, ← Shape.hasErrors_iff]
    rfl
  have hinjective : Function.Injective (Fin.castLE hle) := fun i j hij =>
    Fin.ext (Fin.mk.inj hij)
  refine ⟨⟨Fin.castLE hle, hinjective⟩, hlexical, hsigns, ?_⟩
  rw [Parse.hasErrors, Bool.or_eq_true, hsigns, Bool.not_eq_true', List.isEmpty_eq_false_iff]
  refine ⟨?_, .inr⟩
  rintro ((hnode | htoken) | hreport)
  · rw [← List.length_pos_iff] at hnode ⊢
    exact Nat.lt_of_lt_of_le hnode hle
  · rw [← List.length_pos_iff] at htoken ⊢
    exact Nat.lt_of_lt_of_le (Nat.lt_of_lt_of_le htoken hlexical) (List.length_filter_le _ _)
  · exact hreport

/-- An operand is missing here, and a character has no reading: two error nodes, one of which holds
that character, and a diagnostic for each. -/
theorem errors_explained_unreadable : ∃ p, parseWithin {} "x = ; \\".toList = .ok p ∧
    p.tree.errorNodes.map Tree.Node.span = [⟨3, 3⟩, ⟨6, 7⟩] ∧
    p.tree.unknownTokens.map Tree.Token.span = [⟨6, 7⟩] ∧
    p.diagnostics = [⟨.syntactic .expectedExpression, ⟨4, 5⟩⟩,
      ⟨.lexical (.unexpectedCharacter '\\'), ⟨6, 7⟩⟩] ∧
    (∃ explains : Fin p.tree.errorNodes.length → Fin p.diagnostics.length,
      Function.Injective explains) ∧
    p.tree.unknownTokens.length ≤ p.lexicalDiagnostics.length ∧
    p.tree.hasErrors = true ∧ p.hasErrors = true := by
  obtain ⟨p, hp, htest⟩ := exists_parse_of_test {} "x = ; \\".toList
    (fun p => p.tree.errorNodes.map Tree.Node.span = [⟨3, 3⟩, ⟨6, 7⟩] ∧
      p.tree.unknownTokens.map Tree.Token.span = [⟨6, 7⟩] ∧
      p.diagnostics = [⟨.syntactic .expectedExpression, ⟨4, 5⟩⟩,
        ⟨.lexical (.unexpectedCharacter '\\'), ⟨6, 7⟩⟩]) (by decide +kernel)
  obtain ⟨hnodes, htokens, hdiagnostics⟩ := of_decide_eq_true htest
  obtain ⟨hinjective, hle, htree, hparse⟩ := errors_explained hp
  refine ⟨p, hp, hnodes, htokens, hdiagnostics, hinjective, hle, htree.2 (.inr ?_), hparse.2 ?_⟩
  · rintro hnil
    simp [hnil] at htokens
  · simp [hdiagnostics]

end ActionScript
