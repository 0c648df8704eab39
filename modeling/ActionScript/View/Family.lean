import ActionScript.Kind.Basic

/-!
# Families

Nodes fall into families by their kind: statements, declarations, expressions, primary expressions
and types.  Within a family each kind has a form.  Declarations are one form of statement, and
primary expressions one form of expression.

* `Family.statement_of_declaration`: the former of these inclusions.
-/

set_option autoImplicit false

namespace ActionScript

/-- The families of nodes. -/
inductive Family where
  | statement
  | declaration
  | expression
  | primary
  | type
  deriving DecidableEq, Repr

namespace Family

/-- The forms of a declaration. -/
def declarationForm? : Kind → Option String
  | .variableDecl => some "Variable"
  | .constantDecl => some "Constant"
  | .functionDecl => some "Function"
  | .classDecl => some "Class"
  | .interfaceDecl => some "Interface"
  | .packageDecl => some "Package"
  | .namespaceDecl => some "Namespace"
  | _ => none

/-- The forms of a statement. -/
def statementForm? : Kind → Option String
  | .ifStmt => some "If"
  | .switchStmt => some "Switch"
  | .forStmt => some "For"
  | .forInStmt => some "ForIn"
  | .forEachInStmt => some "ForEachIn"
  | .whileStmt => some "While"
  | .doStmt => some "Do"
  | .tryStmt => some "Try"
  | .withStmt => some "With"
  | .breakStmt => some "Break"
  | .continueStmt => some "Continue"
  | .returnStmt => some "Return"
  | .throwStmt => some "Throw"
  | .emptyStmt => some "Empty"
  | .labeledStmt => some "Labeled"
  | .block => some "Block"
  | .exprStmt => some "Expression"
  | .importStmt => some "Import"
  | .includeDirective => some "Include"
  | .useNamespaceDirective => some "UseNamespace"
  | k => (declarationForm? k).map fun _ => "Declaration"

/-- The forms of a primary expression. -/
def primaryForm? : Kind → Option String
  | .subscriptExpr => some "Subscript"
  | .memberExpr => some "Member"
  | .descendantExpr => some "Descendant"
  | .namespaceAccessExpr => some "NamespaceAccess"
  | .filterExpr => some "Filter"
  | .parenExpr => some "Parenthesized"
  | .ident => some "Identifier"
  | .regexLiteral => some "Regex"
  | .numberLiteral => some "Number"
  | .stringLiteral => some "String"
  | .booleanLiteral => some "Boolean"
  | .nullLiteral => some "Null"
  | .undefinedLiteral => some "Undefined"
  | .thisExpr => some "This"
  | .superExpr => some "Super"
  | .objectLiteral => some "Object"
  | .arrayLiteral => some "Array"
  | .vectorLiteral => some "Vector"
  | .xmlElement => some "Xml"
  | .functionExpr => some "AnonymousFunction"
  | .callExpr => some "Call"
  | .genericType => some "GenericType"
  | _ => none

/-- The forms of an expression. -/
def expressionForm? : Kind → Option String
  | .assignExpr => some "Assignment"
  | .augmentedAssignExpr => some "AugmentedAssignment"
  | .unaryExpr => some "Unary"
  | .binaryExpr => some "Binary"
  | .ternaryExpr => some "Ternary"
  | .updateExpr => some "Update"
  | .castExpr => some "Cast"
  | .newExpr => some "New"
  | .sequenceExpr => some "Sequence"
  | k => (primaryForm? k).map fun _ => "Primary"

/-- The forms of a type. -/
def typeForm? : Kind → Option String
  | .typeName => some "Name"
  | .genericType => some "Generic"
  | .anyType => some "Any"
  | .voidType => some "Void"
  | _ => none

/-- The form that nodes of a kind have in a family; none if they are not of the family. -/
def form? : Family → Kind → Option String
  | .statement => statementForm?
  | .declaration => declarationForm?
  | .expression => expressionForm?
  | .primary => primaryForm?
  | .type => typeForm?

/-- Are nodes of a kind of the family? -/
def admits (f : Family) (k : Kind) : Bool := (f.form? k).isSome

/-- Every declaration is a statement. -/
theorem statement_of_declaration {k : Kind} (h : declaration.admits k = true) :
    statement.admits k = true := by
  cases k <;> first | rfl | exact absurd h (by decide)

end Family

end ActionScript
