import ActionScript.Tree.Node
import ActionScript.View.Family
import ActionScript.View.Literal

/-!
# Views

What can be asked of a node, by its kind.  A view is a list of named questions; each says in which
slot the answer is found and what it has to be.  An answer of another sort counts as missing, so an
error node in the place of an expression is no expression.
-/

set_option autoImplicit false

namespace ActionScript

/-- What a node has to be to answer a question. -/
inductive Role where
  | family (f : Family)
  | only (k : Kind)
  | any
  deriving DecidableEq, Repr

/-- Do nodes of a kind play the role? -/
def Role.admits : Role → Kind → Bool
  | .family f, k => f.admits k
  | .only k, k' => k == k'
  | .any, _ => true

/-- Where the answer to a question is found. -/
inductive Question where
  /-- The first node in a slot. -/
  | node (field : Field) (role : Role)
  /-- The nodes in a slot. -/
  | nodes (field : Field) (role : Role)
  /-- The first child node that plays a role. -/
  | member (role : Role)
  /-- The child nodes that play a role. -/
  | members (role : Role)
  /-- The first child that plays a role, of the first node in a slot. -/
  | memberOf (field : Field) (role : Role)
  /-- The children that play a role, of the first node in a slot. -/
  | membersOf (field : Field) (role : Role)
  /-- The first token in a slot. -/
  | token (field : Field)
  /-- The first element in a slot. -/
  | element (field : Field)
  /-- The elements in a slot. -/
  | elements (field : Field)
  /-- The source text. -/
  | text
  /-- The text of the tokens, without what stands between them. -/
  | path
  /-- The texts of the child tokens that are names. -/
  | words
  /-- Is there a child token of a kind? -/
  | holds (kind : Kind)
  /-- Is it the word `true`? -/
  | truth
  /-- The characters that a string literal denotes. -/
  | denoted
  /-- The body of a regular expression literal. -/
  | pattern
  /-- The flags of a regular expression literal. -/
  | flags
  /-- Does the operator stand behind the operand? -/
  | operatorLast
  /-- Is the start tag the whole element? -/
  | selfClosing
  deriving DecidableEq, Repr

/-- An answer. -/
inductive Answer where
  | node (n : Option Tree.Node)
  | nodes (ns : List Tree.Node)
  | token (t : Option Tree.Token)
  | element (e : Option Tree.Element)
  | elements (es : List Tree.Element)
  | text (t : Text)
  | texts (ts : List Text)
  | flag (b : Bool)

namespace Tree.Node

/-- The first node in a slot, if it plays the role. -/
def child? (n : Node) (field : Field) (role : Role) : Option Node :=
  (n.nodeIn? field).filter fun c => role.admits c.kind

/-- The nodes in a slot that play the role. -/
def childrenIn (n : Node) (field : Field) (role : Role) : List Node :=
  ((n.inField field).filterMap Element.node?).filter fun c => role.admits c.kind

/-- The child nodes that play the role. -/
def members (n : Node) (role : Role) : List Node := n.nodes.filter fun c => role.admits c.kind

/-- The children that play the role, of the first node in a slot. -/
def membersOf (n : Node) (field : Field) (role : Role) : List Node :=
  match n.nodeIn? field with
  | some c => c.members role
  | none => []

/-- Does the operator of an update stand behind its operand? -/
def isOperatorLast (n : Node) : Bool :=
  match n.tokenIn? .operator, n.child? .argument (.family .expression) with
  | some operator, some argument => argument.span.stop ≤ operator.span.start
  | _, _ => false

/-- Is the start tag of an element the whole of it? -/
def isSelfClosing (n : Node) : Bool :=
  match n.child? .openTag (.only .xmlStartTag) with
  | some tag => (tag.tokenOfKind? .slashGt).isSome
  | none => false

end Tree.Node

/-- Asks a node of a tree. -/
def Question.ask (tree : Tree) (n : Tree.Node) : Question → Answer
  | .node field role => .node (n.child? field role)
  | .nodes field role => .nodes (n.childrenIn field role)
  | .member role => .node (n.members role).head?
  | .members role => .nodes (n.members role)
  | .memberOf field role => .node (n.membersOf field role).head?
  | .membersOf field role => .nodes (n.membersOf field role)
  | .token field => .token (n.tokenIn? field)
  | .element field => .element (n.field? field)
  | .elements field => .elements (n.inField field)
  | .text => .text (tree.textOf n)
  | .path => .text (n.significantTokens.flatMap fun t => t.leaf.text)
  | .words =>
    .texts (((n.elements.filterMap Tree.Element.token?).filter fun t => t.kind == .name).map
      fun t => t.leaf.text)
  | .holds kind => .flag (n.tokenOfKind? kind).isSome
  | .truth => .flag (tree.textOf n == "true".toList)
  | .denoted => .text (Literal.stringValue (tree.textOf n))
  | .pattern => .text (Literal.patternBody (tree.textOf n))
  | .flags => .text (Literal.patternFlags (tree.textOf n))
  | .operatorLast => .flag n.isOperatorLast
  | .selfClosing => .flag n.isSelfClosing

/-- The questions that the nodes of a kind answer, by name. -/
abbrev View := List (String × Question)

namespace View

/-- An expression in a slot. -/
def expression (field : Field) : Question := .node field (.family .expression)

/-- A statement in a slot. -/
def statement (field : Field) : Question := .node field (.family .statement)

/-- A node of one kind in a slot. -/
def only (field : Field) (kind : Kind) : Question := .node field (.only kind)

/-- The view of each kind that has one. -/
def of? : Kind → Option View
  | .sourceFile => some [("statements", .members (.family .statement))]
  | .packageDecl => some [("name", only .name .qualifiedName), ("body", only .body .block)]
  | .importStmt => some [("name", only .name .qualifiedName)]
  | .includeDirective => some [("source", only .source .stringLiteral)]
  | .useNamespaceDirective => some [("namespace", only .nameSpace .ident)]
  | .namespaceDecl => some [("name", only .name .ident), ("value", expression .value)]
  | .classDecl => some
      [("name", only .name .ident), ("superclass", only .superclass .extendsClause),
       ("interfaces", only .interfaces .implementsClause), ("body", only .body .classBody)]
  | .interfaceDecl => some
      [("name", only .name .ident), ("extends", only .superclass .extendsClause),
       ("body", only .body .interfaceBody)]
  | .functionDecl => some
      [("name", only .name .ident), ("accessor", .token .accessor),
       ("parameters", only .parameters .paramList),
       ("return_type", only .returnType .typeAscription), ("body", only .body .block)]
  | .variableDecl | .constantDecl => some
      [("declarators", .nodes .declarator (.only .variableDeclarator))]
  | .qualifiedName => some [("segments", .words), ("is_wildcard", .holds .star)]
  | .metadata => some
      [("name", only .name .ident), ("arguments", .membersOf .arguments (.only .metadataArg))]
  | .metadataArg => some [("name", only .name .ident), ("value", expression .value)]
  | .extendsClause | .implementsClause => some [("types", .nodes .type (.family .type))]
  | .classBody | .interfaceBody => some [("members", .members (.family .statement))]
  | .paramList => some
      [("params", .members (.only .param)), ("rest", .member (.only .restParam))]
  | .param => some
      [("name", only .name .ident), ("ty", only .type .typeAscription),
       ("default_value", expression .value)]
  | .restParam => some [("name", only .name .ident), ("ty", only .type .typeAscription)]
  | .typeAscription => some [("ty", .node .type (.family .type))]
  | .typeName => some [("path", .path)]
  | .genericType => some
      [("base", .node .base .any), ("type_arguments", only .typeArguments .typeArgList)]
  | .typeArgList => some [("types", .members (.family .type))]
  | .variableDeclarator => some
      [("name", only .name .ident), ("ty", only .type .typeAscription),
       ("initializer", expression .value)]
  | .block => some [("statements", .members (.family .statement))]
  | .exprStmt => some [("expression", expression .expression)]
  | .ifStmt => some
      [("condition", expression .condition), ("consequence", statement .consequence),
       ("alternative", only .alternative .elseClause)]
  | .elseClause => some [("body", statement .body)]
  | .switchStmt => some
      [("value", expression .value), ("cases", .membersOf .body (.only .caseClause)),
       ("default", .memberOf .body (.only .defaultClause))]
  | .caseClause => some
      [("value", expression .value), ("statements", .nodes .body (.family .statement))]
  | .defaultClause => some [("statements", .nodes .body (.family .statement))]
  | .forStmt => some
      [("initializer", .node .initializer .any), ("condition", expression .condition),
       ("update", expression .update), ("body", statement .body)]
  | .forInStmt | .forEachInStmt => some
      [("left", .node .left .any), ("right", expression .right), ("body", statement .body)]
  | .whileStmt => some [("condition", expression .condition), ("body", statement .body)]
  | .doStmt => some [("body", statement .body), ("condition", expression .condition)]
  | .withStmt => some [("object", expression .object), ("body", statement .body)]
  | .tryStmt => some
      [("body", only .body .block), ("handlers", .nodes .handler (.only .catchClause)),
       ("finalizer", only .finalizer .finallyClause)]
  | .catchClause => some
      [("parameter", only .parameter .ident), ("ty", only .type .typeAscription),
       ("body", only .body .block)]
  | .finallyClause => some [("body", only .body .block)]
  | .breakStmt | .continueStmt => some [("label", only .label .ident)]
  | .returnStmt | .throwStmt => some [("value", expression .value)]
  | .labeledStmt => some [("label", only .label .ident), ("body", statement .body)]
  | .assignExpr | .sequenceExpr => some
      [("left", expression .left), ("right", expression .right)]
  | .augmentedAssignExpr | .binaryExpr => some
      [("left", expression .left), ("operator", .token .operator), ("right", expression .right)]
  | .unaryExpr => some [("operator", .token .operator), ("argument", expression .argument)]
  | .updateExpr => some
      [("operator", .token .operator), ("argument", expression .argument),
       ("is_postfix", .operatorLast)]
  | .ternaryExpr => some
      [("condition", expression .condition), ("consequence", expression .consequence),
       ("alternative", expression .alternative)]
  | .castExpr => some [("value", expression .left), ("ty", expression .right)]
  | .newExpr => some
      [("constructor", expression .constructor), ("arguments", only .arguments .argList)]
  | .subscriptExpr => some [("object", expression .object), ("index", expression .index)]
  | .memberExpr | .descendantExpr => some
      [("object", expression .object), ("property", .node .property .any)]
  | .namespaceAccessExpr => some
      [("namespace", expression .nameSpace), ("property", .node .property .any)]
  | .filterExpr => some [("object", expression .object), ("condition", expression .condition)]
  | .parenExpr => some [("expression", expression .expression)]
  | .callExpr => some
      [("function", expression .function), ("arguments", only .arguments .argList)]
  | .argList => some [("args", .members (.family .expression))]
  | .ident | .numberLiteral => some [("text", .text)]
  | .stringLiteral => some [("text", .text), ("value", .denoted)]
  | .booleanLiteral => some [("value", .truth)]
  | .regexLiteral => some [("pattern", .pattern), ("flags", .flags)]
  | .objectLiteral => some [("pairs", .members (.only .pair))]
  | .pair => some [("key", .node .key .any), ("value", expression .value)]
  | .arrayLiteral => some [("elements", .nodes .element (.family .expression))]
  | .vectorLiteral => some
      [("ty", .node .type (.family .type)), ("elements", .nodes .element (.family .expression))]
  | .functionExpr => some
      [("name", only .name .ident), ("parameters", only .parameters .paramList),
       ("return_type", only .returnType .typeAscription), ("body", only .body .block)]
  | .xmlElement => some
      [("open_tag", only .openTag .xmlStartTag), ("content", .elements .content),
       ("is_self_closing", .selfClosing)]
  | .xmlStartTag => some
      [("name", .token .name), ("attributes", .nodes .attribute (.only .xmlAttribute))]
  | .xmlAttribute => some [("name", .token .name), ("value", .element .value)]
  | .anyType | .voidType | .emptyStmt | .thisExpr | .superExpr | .nullLiteral
  | .undefinedLiteral => some []
  | _ => none

/-- What every declaration answers, whatever its kind. -/
def ofDeclaration : View :=
  [("annotations", .nodes .metadata (.only .metadata)),
   ("modifiers", .nodes .modifier .any), ("name", .node .name .any)]

end View

end ActionScript
