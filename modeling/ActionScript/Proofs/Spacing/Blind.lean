import ActionScript.Proofs.Routines

/-!
# Parsers that do not look at texts

The text of a token matters to the grammar only if the token is a name: it may be a keyword, and the
names of tags are compared.  What else a parser does depends on the kinds of tokens and on where
lines begin.

* `Glimpse.blur`: what is left of a glimpse without the text of anything but a name.
* `Parser.Blind`: parsers that go on in the same way after a blurred glimpse.
* `Grammar.blind_rule`, `Grammar.blind_sourceFile`: **all routines of the grammar are blind**, as is
  seen by looking at each once.
-/

set_option autoImplicit false

namespace ActionScript

/-- A glimpse without the text of anything but a name. -/
def Glimpse.blur (g : Glimpse) : Glimpse := if g.kind = .name then g else { g with text := [] }

namespace Glimpse

variable (g : Glimpse)

@[simp] theorem blur_kind : g.blur.kind = g.kind := by
  unfold blur
  split <;> rfl

@[simp] theorem blur_startsLine : g.blur.startsLine = g.startsLine := by
  unfold blur
  split <;> rfl

theorem blur_of_name {g : Glimpse} (h : g.kind = .name) : g.blur = g := if_pos h

@[simp] theorem blur_isWord (word : String) : g.blur.isWord word = g.isWord word := by
  by_cases hname : g.kind = .name
  · rw [blur_of_name hname]
  · simp [isWord, beq_false_of_ne hname]

@[simp] theorem blur_isOneOf (words : List String) : g.blur.isOneOf words = g.isOneOf words := by
  by_cases hname : g.kind = .name
  · rw [blur_of_name hname]
  · simp [isOneOf, beq_false_of_ne hname]

@[simp] theorem blur_spells (keyword : Kind) :
    (g.kind == .name && keyword.spells g.blur.text) =
      (g.kind == .name && keyword.spells g.text) := by
  by_cases hname : g.kind = .name
  · rw [blur_of_name hname]
  · rw [beq_false_of_ne hname, Bool.false_and, Bool.false_and]

@[simp] theorem blur_spells_iff (keyword : Kind) :
    g.kind = .name ∧ keyword.spells g.blur.text = true ↔
      g.kind = .name ∧ keyword.spells g.text = true :=
  and_congr_right fun hname => by rw [blur_of_name hname]

@[simp] theorem blur_atStatementWord :
    Grammar.atStatementWord g.blur = Grammar.atStatementWord g := g.blur_isOneOf _

@[simp] theorem blur_infixOperator? (r : Restrictions) :
    Grammar.infixOperator? r g.blur = Grammar.infixOperator? r g := by
  by_cases hname : g.kind = .name
  · rw [blur_of_name hname]
  · simp only [Grammar.infixOperator?, blur_kind]
    split <;> simp_all

@[simp] theorem blur_leadingOperator? :
    Grammar.leadingOperator? g.blur = Grammar.leadingOperator? g := by
  by_cases hname : g.kind = .name
  · rw [blur_of_name hname]
  · simp only [Grammar.leadingOperator?, blur_kind]

end Glimpse

namespace Parser

/-- The parser goes on in the same way after a blurred glimpse, and its value is none. -/
def Blind : {α : Type} → Parser α → Prop
  | _, .andThen (.look _) next => ∀ g : Glimpse, next g.blur = next g ∧ Blind (next g)
  | _, .andThen (.ahead _) next => ∀ g : Glimpse, next g.blur = next g ∧ Blind (next g)
  | _, .andThen first next => Blind first ∧ ∀ value, Blind (next value)
  | _, .look _ => False
  | _, .ahead _ => False
  | _, .node body => Blind body
  | _, .wrap _ body => Blind body
  | _, .loop body => Blind body
  | _, _ => True

section
variable {α β : Type}

@[simp] theorem blind_pure (a : α) : (pure a : Parser α).Blind := trivial

@[simp] theorem blind_look_bind {mode : Mode} {f : Glimpse → Parser α} :
    (look mode >>= f).Blind ↔ ∀ g : Glimpse, f g.blur = f g ∧ (f g).Blind := Iff.rfl

@[simp] theorem blind_ahead_bind {n : Nat} {f : Glimpse → Parser α} :
    (ahead n >>= f).Blind ↔ ∀ g : Glimpse, f g.blur = f g ∧ (f g).Blind := Iff.rfl

/-- Only what is done with tokens that are no names has to be looked at. -/
theorem blind_look_of {mode : Mode} {f : Glimpse → Parser α}
    (h : ∀ g : Glimpse, g.kind ≠ .name → f g.blur = f g) (hf : ∀ g, (f g).Blind) :
    (look mode >>= f).Blind := by
  refine blind_look_bind.2 fun g => ⟨?_, hf g⟩
  by_cases hname : g.kind = .name
  · rw [Glimpse.blur_of_name hname]
  · exact h g hname

theorem blind_ahead_of {n : Nat} {f : Glimpse → Parser α}
    (h : ∀ g : Glimpse, g.kind ≠ .name → f g.blur = f g) (hf : ∀ g, (f g).Blind) :
    (ahead n >>= f).Blind := by
  refine blind_ahead_bind.2 fun g => ⟨?_, hf g⟩
  by_cases hname : g.kind = .name
  · rw [Glimpse.blur_of_name hname]
  · exact h g hname

/-- What has a value other than a glimpse does not end with a look. -/
theorem blind_bind_of_ne (hβ : β ≠ Glimpse) {p : Parser β} {f : β → Parser α} :
    (p >>= f).Blind ↔ p.Blind ∧ ∀ value, (f value).Blind := by
  cases p with
  | look mode => exact absurd rfl hβ
  | ahead n => exact absurd rfl hβ
  | _ => exact Iff.rfl

/-- There are more than two glimpses. -/
theorem ne_glimpse (h : ∀ a b c : β, a = b ∨ b = c ∨ a = c) : β ≠ Glimpse := by
  rintro rfl
  exact absurd (h ⟨.eof, [], false⟩ ⟨.eof, [], true⟩ ⟨.name, [], false⟩) (by decide)

@[simp] theorem blind_unit_bind {p : Parser Unit} {f : Unit → Parser α} :
    (p >>= f).Blind ↔ p.Blind ∧ ∀ value, (f value).Blind :=
  blind_bind_of_ne (ne_glimpse fun _ _ _ => .inl rfl)

@[simp] theorem blind_bool_bind {p : Parser Bool} {f : Bool → Parser α} :
    (p >>= f).Blind ↔ p.Blind ∧ ∀ value, (f value).Blind :=
  blind_bind_of_ne (ne_glimpse (by decide))

@[simp] theorem blind_bind {p : Parser β} (hp : p.Blind) {f : β → Parser α} :
    (p >>= f).Blind ↔ ∀ value, (f value).Blind := by
  cases p with
  | look mode => exact hp.elim
  | ahead n => exact hp.elim
  | _ => exact and_iff_right hp

@[simp] theorem blind_take (field : Option Field) : (take field).Blind := trivial
@[simp] theorem blind_takeWord (keyword : Kind) (field : Option Field) :
    (takeWord keyword field).Blind := trivial
@[simp] theorem blind_report (error : SyntaxError) : (report error).Blind := trivial
@[simp] theorem blind_label (field : Field) : (label field).Blind := trivial
@[simp] theorem blind_call (rule : Rule) : (call rule).Blind := trivial
@[simp] theorem blind_require (mode : Mode) (kind : Kind) : (require mode kind).Blind := trivial
@[simp] theorem blind_loop {body : Parser Bool} : (loop body).Blind ↔ body.Blind := Iff.rfl
@[simp] theorem blind_node {body : Parser (Kind × α)} : (node body).Blind ↔ body.Blind := Iff.rfl
@[simp] theorem blind_wrap {field : Field} {body : Parser Kind} :
    (wrap field body).Blind ↔ body.Blind := Iff.rfl

@[simp] theorem blind_ite {c : Prop} [Decidable c] {p q : Parser α} :
    (if c then p else q).Blind ↔ (c → p.Blind) ∧ (¬c → q.Blind) := by
  split <;> simp [*]

@[simp] theorem blind_nodeOf {kind : Kind} {body : Parser Unit} :
    (nodeOf kind body).Blind ↔ body.Blind := by
  simp [nodeOf]

@[simp] theorem blind_when {c : Bool} {p : Parser Unit} :
    (when c p).Blind ↔ (c = true → p.Blind) := by
  simp [when]

end

/-! ## The common pieces -/

@[simp] theorem blind_peek : peek.Blind := by simp [peek]
@[simp] theorem blind_sees (kind : Kind) : (sees kind).Blind := by simp [sees]
@[simp] theorem blind_seesIn (mode : Mode) (kind : Kind) : (seesIn mode kind).Blind := by
  simp [seesIn]
@[simp] theorem blind_seesWord (word : String) : (seesWord word).Blind := by simp [seesWord]
@[simp] theorem blind_leaf (kind : Kind) : (leaf kind).Blind := by simp [leaf]
@[simp] theorem blind_wordLeaf (keyword kind : Kind) : (wordLeaf keyword kind).Blind := by
  simp [wordLeaf]
@[simp] theorem blind_eat (kind : Kind) : (eat kind).Blind := by simp [eat]
@[simp] theorem blind_eatWord (keyword : Kind) : (eatWord keyword).Blind := by simp [eatWord]
@[simp] theorem blind_missing (error : SyntaxError) : (missing error).Blind := by simp [missing]
@[simp] theorem blind_reject (error : SyntaxError) : (reject error).Blind := by simp [reject]
@[simp] theorem blind_rejectUnless (stops : KindSet) (error : SyntaxError) :
    (rejectUnless stops error).Blind := by simp [rejectUnless]
@[simp] theorem blind_expectIn (mode : Mode) (kind : Kind) : (expectIn mode kind).Blind := by
  simp [expectIn]
@[simp] theorem blind_expect (kind : Kind) : (expect kind).Blind := by simp [expect]
@[simp] theorem blind_expectWord (keyword : Kind) : (expectWord keyword).Blind := by
  simp [expectWord]
@[simp] theorem blind_callIn (field : Field) (rule : Rule) : (callIn field rule).Blind := by
  simp [callIn]

end Parser

namespace Grammar

open ActionScript.Parser

/-! ## Names, lists and types -/

@[simp] theorem blind_name (field : Field) (stops : List Kind) : (name field stops).Blind := by
  simp [name]

@[simp] theorem blind_qualifiedName (field : Field) (wildcard : Bool) :
    (qualifiedName field wildcard).Blind := by
  simp [qualifiedName, nameTail]

@[simp] theorem blind_delimited (b : Brackets) {item : Parser Bool} (h : item.Blind) :
    (delimited b item).Blind := by
  simp [delimited, h]

@[simp] theorem blind_semicolon : semicolon.Blind := by
  simp [semicolon, skipStatement]

@[simp] theorem blind_braced (kind : Kind) : (braced kind).Blind := by
  simp [braced, statements]

@[simp] theorem blind_block : block.Blind := blind_braced _

@[simp] theorem blind_expression (field : Field) : (expression field).Blind := by
  simp [expression]

@[simp] theorem blind_assignment (field : Field) : (assignment field).Blind := by
  simp [assignment]

@[simp] theorem blind_typeIn (field : Field) : (typeIn field).Blind := by simp [typeIn]

@[simp] theorem blind_typeAscription? (field : Field) : (typeAscription? field).Blind := by
  simp [typeAscription?, typeAscription]

@[simp] theorem blind_typeArguments : typeArguments.Blind := by
  simp [typeArguments]

@[simp] theorem blind_typeName : typeName.Blind := by
  simp [typeName]

theorem blind_typeRule : typeRule.Blind := by
  refine blind_look_bind.2 fun g => ⟨by simp, ?_⟩
  split <;> simp

@[simp] theorem blind_typeList : typeList.Blind := by
  simp [typeList]

@[simp] theorem blind_parameter : parameter.Blind := by
  simp [parameter]

@[simp] theorem blind_restParameter : restParameter.Blind := by
  simp [restParameter]

@[simp] theorem blind_parameterList : parameterList.Blind := by
  simp only [parameterList, blind_unit_bind, blind_nodeOf, blind_take, blind_loop,
    blind_bind blind_peek, blind_expect, blind_label, true_and, and_true, implies_true]
  intro _ k
  split <;> simp

@[simp] theorem blind_signature : signature.Blind := by
  simp [signature]

/-! ## Expressions -/

@[simp] theorem blind_takeOperator (op : Kind) : (takeOperator op).Blind := by
  simp [takeOperator]

@[simp] theorem blind_operation (op : Kind) (p : Precedence) (r : Restrictions) :
    (operation op p r).Blind := by
  unfold operation
  split <;> simp

theorem blind_expressionRule (min : Precedence) (r : Restrictions) :
    (expressionRule min r).Blind := by
  simp only [expressionRule, blind_unit_bind, blind_call, blind_loop, blind_look_bind,
    Glimpse.blur_infixOperator?, true_and]
  intro _ g
  split <;> simp

@[simp] theorem blind_arguments : arguments.Blind := by
  simp [arguments]

@[simp] theorem blind_elements : elements.Blind := by
  simp [elements]

@[simp] theorem blind_property? : property?.Blind := by
  simp [property?]

@[simp] theorem blind_objectLiteral : objectLiteral.Blind := by
  simp [objectLiteral]

@[simp] theorem blind_closesVector (limit i depth : Nat) : (closesVector limit i depth).Blind := by
  induction limit generalizing i depth with
  | zero => trivial
  | succ limit ih =>
    refine blind_ahead_bind.2 fun g => ⟨by simp, ?_⟩
    extract_lets depth?
    clear_value depth?
    split
    · trivial
    · simp
    · exact ih _ _

@[simp] theorem blind_opensVector : opensVector.Blind := blind_closesVector _ _ _

@[simp] theorem blind_vectorBody : vectorBody.Blind := by
  simp [vectorBody]

@[simp] theorem blind_functionExpression : functionExpression.Blind := by
  simp [functionExpression]

@[simp] theorem blind_wordOperand (g : Glimpse) : (wordOperand g).Blind := by
  unfold wordOperand
  split <;> simp

@[simp] theorem blind_operand : operand.Blind := by
  refine blind_look_of (fun g hname => ?_) fun g => ?_
  · simp only [Glimpse.blur_kind]
    split <;> simp_all
  · split <;> simp

@[simp] theorem blind_propertyName : propertyName.Blind := by
  simp only [propertyName, blind_bind blind_peek, blind_unit_bind, blind_label,
    implies_true, and_true]
  intro k
  split <;> simp

@[simp] theorem blind_link (calls : Bool) : (link calls).Blind := by
  refine blind_look_bind.2 fun g => ⟨by simp, ?_⟩
  split <;> simp

@[simp] theorem blind_chain (calls : Bool) : (chain calls).Blind := by
  simp [chain]

theorem blind_constructionRule : constructionRule.Blind := by
  simp [constructionRule]

@[simp] theorem blind_chained : chained.Blind := by
  simp [chained]

theorem blind_unaryRule : unaryRule.Blind := by
  refine blind_look_bind.2 fun g => ⟨by simp, ?_⟩
  split <;> simp

/-! ## Elements -/

@[simp] theorem blind_interpolation (field : Field) : (interpolation field).Blind := by
  simp [interpolation]

@[simp] theorem blind_tagName : tagName.Blind := by
  refine blind_look_of (fun g hname => ?_) fun g => ?_
  · simp only [Glimpse.blur_kind]
    split <;> simp_all
  · split <;> simp

@[simp] theorem blind_tagName? : tagName?.Blind := by
  simp [tagName?]

@[simp] theorem blind_tagAttribute : tagAttribute.Blind := by
  simp only [tagAttribute, blind_unit_bind, blind_bool_bind, blind_nodeOf, blind_take,
    blind_expectIn, blind_when, blind_look_bind, blind_label, Glimpse.blur_kind, true_and, and_true,
    implies_true]
  intro _ _ _ g
  split <;> simp

@[simp] theorem blind_attributes : attributes.Blind := by
  refine blind_look_bind.2 fun g => ⟨by simp, ?_⟩
  split <;> simp

@[simp] theorem blind_startTag : startTag.Blind := by
  simp [startTag]

@[simp] theorem blind_content : content.Blind := by
  refine blind_look_bind.2 fun g => ⟨by simp, ?_⟩
  split <;> simp

@[simp] theorem blind_checkName (opening closing : Option Text) :
    (checkName opening closing).Blind := by
  unfold checkName
  split <;> simp

@[simp] theorem blind_endTag (opening : Option Text) : (endTag opening).Blind := by
  simp [endTag]

theorem blind_elementRule : elementRule.Blind := by
  simp [elementRule]

/-! ## Declarations -/

@[simp] theorem blind_declarationWord? (limit i : Nat) : (declarationWord? limit i).Blind := by
  induction limit generalizing i with
  | zero => trivial
  | succ limit ih =>
    refine blind_ahead_of (fun g hname => ?_) fun g => ?_
    · simp [hname]
    · split
      · trivial
      · split <;> simp [ih]

@[simp] theorem blind_nextDeclaration? : nextDeclaration?.Blind := blind_declarationWord? _ _

@[simp] theorem blind_behindArguments? (limit j depth : Nat) :
    (behindArguments? limit j depth).Blind := by
  induction limit generalizing j depth with
  | zero => trivial
  | succ limit ih =>
    refine blind_ahead_bind.2 fun g => ⟨by simp, ?_⟩
    split <;> simp [ih]

@[simp] theorem blind_behindMetadata? (i : Nat) : (behindMetadata? i).Blind := by
  refine blind_ahead_bind.2 fun first => ⟨by simp, ?_⟩
  simp only [blind_ite, blind_ahead_bind, Glimpse.blur_kind, true_and]
  refine ⟨fun _ => trivial, fun _ second => ⟨fun _ => trivial, fun _ third => ?_⟩⟩
  split <;> simp

@[simp] theorem blind_behindMetadataRun (limit i : Nat) : (behindMetadataRun limit i).Blind := by
  induction limit generalizing i with
  | zero => trivial
  | succ limit ih =>
    simp only [behindMetadataRun, blind_ite, blind_pure, blind_bind (blind_behindMetadata? i),
      implies_true, true_and]
    intro _ next
    split <;> simp [ih]

@[simp] theorem blind_seesAnnotatedDeclaration : seesAnnotatedDeclaration.Blind := by
  simp [seesAnnotatedDeclaration]

@[simp] theorem blind_metadataArgument? : metadataArgument?.Blind := by
  simp [metadataArgument?]

@[simp] theorem blind_metadata : metadata.Blind := by
  simp [metadata]

@[simp] theorem blind_metadataRun : metadataRun.Blind := by
  simp [metadataRun]

@[simp] theorem blind_modifier (kind : Kind) (g : Glimpse) : (modifier kind g).Blind := by
  unfold modifier
  split <;> simp

@[simp] theorem blind_modifiers (keyword : Kind) : (modifiers keyword).Blind := by
  refine blind_look_of (fun g hname => ?_) fun g => ?_
  · simp [hname]
  · simp

@[simp] theorem blind_memberBody (kind : Kind) : (memberBody kind).Blind := by
  simp [memberBody]

@[simp] theorem blind_clause? (keyword kind : Kind) (field : Field) {body : Parser Unit}
    (h : body.Blind) : (clause? keyword kind field body).Blind := by
  simp [clause?, h]

@[simp] theorem blind_classBody : classBody.Blind := by
  simp [classBody]

@[simp] theorem blind_interfaceBody : interfaceBody.Blind := by
  simp [interfaceBody]

@[simp] theorem blind_functionBody : functionBody.Blind := by
  simp [functionBody, accessor]

@[simp] theorem blind_declarators (r : Restrictions) : (declarators r).Blind := by
  simp [declarators]

@[simp] theorem blind_variableBody (keyword : Kind) : (variableBody keyword).Blind := by
  simp [variableBody]

@[simp] theorem blind_namespaceBody : namespaceBody.Blind := by
  simp [namespaceBody]

@[simp] theorem blind_declarationBody (keyword : Kind) : (declarationBody keyword).Blind := by
  simp only [declarationBody, blind_unit_bind, blind_modifiers, true_and]
  intro _
  split <;> simp

@[simp] theorem blind_declaration (keyword : Kind) : (declaration keyword).Blind := by
  simp [declaration]

@[simp] theorem blind_annotated : annotated.Blind := by
  simp only [annotated, blind_node, blind_unit_bind, blind_metadataRun,
    blind_bind blind_nextDeclaration?, true_and]
  intro _ keyword
  split <;> simp

@[simp] theorem blind_variableHead : variableHead.Blind := by
  simp [variableHead]

@[simp] theorem blind_packageDeclaration : packageDeclaration.Blind := by
  simp [packageDeclaration]

@[simp] theorem blind_importStatement : importStatement.Blind := by
  simp [importStatement]

@[simp] theorem blind_includeDirective : includeDirective.Blind := by
  simp [includeDirective]

@[simp] theorem blind_useNamespaceDirective : useNamespaceDirective.Blind := by
  simp [useNamespaceDirective]

/-! ## Statements -/

@[simp] theorem blind_statementIn (field : Field) : (statementIn field).Blind := by
  simp [statementIn]

@[simp] theorem blind_expressionStatement : expressionStatement.Blind := by
  simp [expressionStatement]

@[simp] theorem blind_parenthesized (field : Field) : (parenthesized field).Blind := by
  simp [parenthesized]

@[simp] theorem blind_ifStatement : ifStatement.Blind := by
  simp [ifStatement]

@[simp] theorem blind_switchClause (g : Glimpse) : (switchClause g).Blind := by
  simp [switchClause, clauseStatements]

@[simp] theorem blur_switchClause (g : Glimpse) : switchClause g.blur = switchClause g := by
  simp [switchClause]

@[simp] theorem blind_switchStatement : switchStatement.Blind := by
  simp [switchStatement]

@[simp] theorem blind_forStatement : forStatement.Blind := by
  simp [forStatement, forHead]

@[simp] theorem blind_whileStatement : whileStatement.Blind := by
  simp [whileStatement]

@[simp] theorem blind_doStatement : doStatement.Blind := by
  simp [doStatement]

@[simp] theorem blind_withStatement : withStatement.Blind := by
  simp [withStatement]

@[simp] theorem blind_bodyBlock : bodyBlock.Blind := by
  simp [bodyBlock]

@[simp] theorem blind_tryStatement : tryStatement.Blind := by
  simp [tryStatement, catchClauses, catchClause]

@[simp] theorem blind_jumpStatement (keyword kind : Kind) : (jumpStatement keyword kind).Blind := by
  simp [jumpStatement]

@[simp] theorem blind_valueStatement (keyword kind : Kind) :
    (valueStatement keyword kind).Blind := by
  simp [valueStatement]

@[simp] theorem blind_plainWordStatement : plainWordStatement.Blind := by
  simp only [plainWordStatement, blind_bind blind_nextDeclaration?]
  intro keyword
  split <;> simp [labeledStatement]

@[simp] theorem blind_wordStatement (g : Glimpse) : (wordStatement g).Blind := by
  unfold wordStatement
  split <;> simp

theorem blind_statementRule : statementRule.Blind := by
  refine blind_look_of (fun g hname => ?_) fun g => ?_
  · simp only [Glimpse.blur_kind]
    split <;> simp_all
  · split <;> simp

theorem blind_sourceFile : sourceFile.Blind := by
  simp [sourceFile]

/-- **Every rule is blind.** -/
theorem blind_rule (rule : Rule) : (Grammar.rule rule).Blind := by
  cases rule with
  | statement => exact blind_statementRule
  | expression min r => exact blind_expressionRule min r
  | unary => exact blind_unaryRule
  | construction => exact blind_constructionRule
  | type => exact blind_typeRule
  | element => exact blind_elementRule

end Grammar

end ActionScript
