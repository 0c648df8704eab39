import ActionScript.Field
import ActionScript.Token.Basic

/-!
# Shapes

A shape is a syntax tree without positions: nodes with their children, and tokens with their text
and the pieces around it.  It determines the source text.
-/

set_option autoImplicit false

namespace ActionScript

/-- A tree without positions. -/
inductive Shape where
  | token (kind : Kind) (field : Option Field) (leading : List Trivia) (text : Text)
      (trailing : List Trivia)
  | node (kind : Kind) (field : Option Field) (children : List Shape)
  deriving Repr

namespace Shape

/-- Puts a shape into a slot of its parent. -/
def withField (f : Field) : Shape → Shape
  | .token kind _ leading text trailing => .token kind (some f) leading text trailing
  | .node kind _ children => .node kind (some f) children

/-- The kind at the top of a shape. -/
def kind : Shape → Kind
  | .token kind .. => kind
  | .node kind .. => kind

mutual

/-- The source text of a shape. -/
def source : Shape → Text
  | .token _ _ leading text trailing =>
    Trivia.flatten leading ++ text ++ Trivia.flatten trailing
  | .node _ _ children => sourceAll children

/-- The source text of several shapes in a row. -/
def sourceAll : List Shape → Text
  | [] => []
  | s :: ss => s.source ++ sourceAll ss

end

mutual

/-- Does a shape hold an error node or a token without a reading? -/
def hasErrors : Shape → Bool
  | .token kind .. => kind == .unknown
  | .node kind _ children => kind == .error || hasErrorsAll children

/-- Does one of the shapes hold an error? -/
def hasErrorsAll : List Shape → Bool
  | [] => false
  | s :: ss => s.hasErrors || hasErrorsAll ss

end

mutual

/-- The number of nodes of a shape. -/
def nodeCount : Shape → Nat
  | .token .. => 0
  | .node _ _ children => 1 + nodeCountAll children

/-- The number of nodes of several shapes. -/
def nodeCountAll : List Shape → Nat
  | [] => 0
  | s :: ss => s.nodeCount + nodeCountAll ss

end

end Shape

end ActionScript
