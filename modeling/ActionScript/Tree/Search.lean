import ActionScript.Tree.Node

/-!
# Searching by offset

Which tokens touch an offset, and which element holds a stretch of text.
-/

set_option autoImplicit false

namespace ActionScript.Tree

/-- The tokens that touch an offset. -/
inductive Touching where
  | none
  | single (t : Token)
  | between (left right : Token)

namespace Touching

/-- The token that ends at the offset, if there are two. -/
def left? : Touching → Option Token
  | .none => Option.none
  | .single t => some t
  | .between l _ => some l

/-- The token that begins at the offset, if there are two. -/
def right? : Touching → Option Token
  | .none => Option.none
  | .single t => some t
  | .between _ r => some r

/-- The touching tokens in source order. -/
def toList : Touching → List Token
  | .none => []
  | .single t => [t]
  | .between l r => [l, r]

end Touching

namespace Node

/-- The tokens of a node that touch an offset, trivia included. -/
def tokensAt (n : Node) (offset : Nat) : Touching :=
  let passed := n.tokens.takeWhile fun t => t.span.stop ≤ offset
  match n.tokens.dropWhile fun t => t.span.stop ≤ offset with
  | [] => .none
  | right :: _ =>
    if offset < right.span.start then .none
    else
      match passed.getLast? with
      | some left => if left.span.stop == offset then .between left right else .single right
      | none => .single right

/-- The smallest element below a node that holds a span: a token whose own span does, or else a node
whose full span does, or else the node itself. -/
def covering (n : Node) (s : Span) : Element :=
  match (n.tokensAt s.start).right? with
  | none => .node n
  | some t =>
    if t.span.contains s then .token t
    else
      let below := t.parent.ancestors.takeWhile fun a => a.info.index != n.info.index
      .node ((below.find? fun a => a.fullSpan.contains s).getD n)

end Node

end ActionScript.Tree
