import ActionScript.Kind.Spelling
import ActionScript.Token.Basic

/-!
# Diagnostics

What a parse has to say about a text: flawed tokens, and constructs that were not found where a
rule expected them.  A diagnostic holds its cause; the wording is derived from it.
-/

set_option autoImplicit false

namespace ActionScript

/-- What can be wrong with the structure of a text. -/
inductive SyntaxError where
  /-- A token that a rule cannot do without. -/
  | expected (kind : Kind)
  /-- A token that fits no rule. -/
  | unexpected (kind : Kind)
  /-- A word that only makes sense inside a statement that is missing. -/
  | unexpectedWord (word : Text)
  | unmatchedBrace
  | nestingTooDeep
  | expectedIdentifier
  | expectedName
  | expectedExpression
  | expectedStatement
  | expectedType
  | expectedArgument
  | expectedProperty
  | expectedPropertyName
  | expectedMetadataArgument
  | expectedFunctionBody
  | expectedParameterList
  | expectedClause
  | expectedHandler
  | expectedDeclaration
  | expectedPath
  | notClassAttribute (word : Text)
  | onlyOnClasses (word : Text)
  | expectedTagName
  | expectedAttributeValue
  | expectedClosingTag
  | mismatchedTag (closing opening : Text)
  deriving DecidableEq, Repr

/-- A piece of source text in back quotes. -/
def inBackQuotes (t : Text) : String := "`" ++ String.ofList t ++ "`"

/-- The wording of an error. -/
def SyntaxError.message : SyntaxError → String
  | .expected kind => "expected " ++ kind.describe
  | .unexpected kind => "unexpected " ++ kind.describe
  | .unexpectedWord word => "unexpected " ++ inBackQuotes word
  | .unmatchedBrace => "unmatched `\x7d`"
  | .nestingTooDeep => "nesting too deep"
  | .expectedIdentifier => "expected identifier"
  | .expectedName => "expected a name"
  | .expectedExpression => "expected expression"
  | .expectedStatement => "expected statement"
  | .expectedType => "expected type"
  | .expectedArgument => "expected argument"
  | .expectedProperty => "expected property"
  | .expectedPropertyName => "expected property name"
  | .expectedMetadataArgument => "expected annotation argument"
  | .expectedFunctionBody => "expected function body"
  | .expectedParameterList => "expected parameter list"
  | .expectedClause => "expected `case` or `default`"
  | .expectedHandler => "expected `catch` or `finally`"
  | .expectedDeclaration => "expected a declaration after annotations"
  | .expectedPath => "expected a file path string"
  | .notClassAttribute word => inBackQuotes word ++ " is not a class attribute"
  | .onlyOnClasses word => inBackQuotes word ++ " is only allowed on classes"
  | .expectedTagName => "expected a tag name"
  | .expectedAttributeValue => "expected an attribute value"
  | .expectedClosingTag => "expected a closing tag"
  | .mismatchedTag closing opening =>
    "closing tag " ++ inBackQuotes closing ++ " does not match " ++ inBackQuotes opening

/-- Why a diagnostic is reported. -/
inductive Cause where
  | lexical (error : LexError)
  | syntactic (error : SyntaxError)
  deriving DecidableEq, Repr

/-- The two sorts of diagnostics. -/
inductive Category where
  /-- A malformed token. -/
  | lexical
  /-- A construct that was not found. -/
  | syntactic
  deriving DecidableEq, Repr

/-- The sort of a cause. -/
def Cause.category : Cause → Category
  | .lexical _ => .lexical
  | .syntactic _ => .syntactic

/-- The wording of a cause. -/
def Cause.message : Cause → String
  | .lexical e => e.message
  | .syntactic e => e.message

/-- How a sort of diagnostics is called. -/
def Category.title : Category → String
  | .lexical => "lex error"
  | .syntactic => "syntax error"

/-- What is said at the place of a diagnostic. -/
def Category.label : Category → String
  | .lexical => "in this token"
  | .syntactic => "here"

/-- Something wrong with a text, and where. -/
structure Diagnostic where
  cause : Cause
  span : Span
  deriving DecidableEq, Repr

end ActionScript
