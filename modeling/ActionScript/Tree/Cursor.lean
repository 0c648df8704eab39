import ActionScript.Tree.Node

/-!
# Cursors

A cursor stands on a node or token and moves to its neighbours.  It never leaves the subtree it was
made for.  A move that is not possible leaves it where it is.
-/

set_option autoImplicit false

namespace ActionScript.Tree

/-- A cursor: the node it was made for, where it stands, and how deep below that node. -/
structure Cursor where
  home : Node
  here : Element
  depth : Nat

namespace Cursor

/-- A cursor on a node. -/
def ofNode (n : Node) : Cursor := ⟨n, .node n, 0⟩

/-- The slot that the element under the cursor fills.  The cursor's own root fills none. -/
def field (c : Cursor) : Option Field := if c.depth = 0 then none else c.here.field

/-- The children of the element under the cursor. -/
def below (c : Cursor) : List Element :=
  match c.here with
  | .node n => n.elements
  | .token _ => []

/-- Moves to the first child. -/
def firstChild? (c : Cursor) : Option Cursor :=
  c.below.head?.map fun e => { c with here := e, depth := c.depth + 1 }

/-- Moves to the first child that reaches past an offset, trivia included. -/
def firstChildFor? (c : Cursor) (offset : Nat) : Option Cursor :=
  (c.below.find? fun e => offset < e.fullSpan.stop).map fun e =>
    { c with here := e, depth := c.depth + 1 }

/-- Moves to the next sibling. -/
def nextSibling? (c : Cursor) : Option Cursor :=
  if c.depth = 0 then none else c.here.next?.map fun e => { c with here := e }

/-- Moves to the sibling before. -/
def prevSibling? (c : Cursor) : Option Cursor :=
  if c.depth = 0 then none else c.here.prev?.map fun e => { c with here := e }

/-- Moves to the parent. -/
def parent? (c : Cursor) : Option Cursor :=
  if c.depth = 0 then none
  else c.here.parent?.map fun n => { c with here := .node n, depth := c.depth - 1 }

/-- Moves back to where it started. -/
def reset (c : Cursor) : Cursor := ofNode c.home

/-- The ways to move. -/
inductive Move where
  | firstChild
  | firstChildFor (offset : Nat)
  | nextSibling
  | prevSibling
  | parent
  | reset
  deriving DecidableEq, Repr

/-- Moves, if that is possible. -/
def move? (c : Cursor) : Move → Option Cursor
  | .firstChild => c.firstChild?
  | .firstChildFor offset => c.firstChildFor? offset
  | .nextSibling => c.nextSibling?
  | .prevSibling => c.prevSibling?
  | .parent => c.parent?
  | .reset => some c.reset

end Cursor

end ActionScript.Tree
