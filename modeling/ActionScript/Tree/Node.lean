import ActionScript.Tree.Basic

/-!
# Moving in a tree

A node is seen together with the nodes around it, innermost first, so every move is a look at that
list: the parent is its head, the siblings are the parent's other children.  A token is seen
together with its parent; a piece of trivia has the parent of the token it belongs to, but no
siblings.
-/

set_option autoImplicit false

namespace ActionScript

namespace Tree

/-- An enclosing node, and which of its children leads down. -/
structure Frame where
  info : NodeInfo
  children : List Item
  slot : Nat

/-- A node and the nodes around it, innermost first. -/
structure Node where
  info : NodeInfo
  children : List Item
  above : List Frame

/-- A token or a piece of trivia.  `slot` is its place among the parent's children, which a piece of
trivia has not. -/
structure Token where
  leaf : Leaf
  leading : List Leaf
  trailing : List Leaf
  slot : Option Nat
  parent : Node

/-- A node or a token. -/
inductive Element where
  | node (n : Node)
  | token (t : Token)

/-- The root of a tree. -/
def root (t : Tree) : Node := ⟨t.info, t.children, []⟩

namespace Node

/-- The kind of a node. -/
def kind (n : Node) : Kind := n.info.kind

/-- The slot of the parent that a node fills. -/
def field (n : Node) : Option Field := n.info.field

/-- Where a node lies, trivia at its ends excluded. -/
def span (n : Node) : Span := n.info.span

/-- Where a node lies with all its trivia. -/
def fullSpan (n : Node) : Span := n.info.full

/-- The node around a node. -/
def parent? (n : Node) : Option Node :=
  match n.above with
  | [] => none
  | f :: above => some ⟨f.info, f.children, above⟩

/-- The nodes of a list of frames, innermost first. -/
def ofFrames : List Frame → List Node
  | [] => []
  | f :: above => ⟨f.info, f.children, above⟩ :: ofFrames above

/-- A node and the nodes around it, innermost first. -/
def ancestors (n : Node) : List Node := n :: ofFrames n.above

/-- A child node, seen from its parent. -/
def child (n : Node) (slot : Nat) (info : NodeInfo) (children : List Item) : Node :=
  ⟨info, children, ⟨n.info, n.children, slot⟩ :: n.above⟩

/-- The token of a cluster, seen from its parent. -/
def token (n : Node) (slot : Nat) (c : Cluster) : Token :=
  ⟨c.leaf, c.leading, c.trailing, some slot, n⟩

/-- A piece of trivia, seen from the parent of its token. -/
def trivia (n : Node) (leaf : Leaf) : Token := ⟨leaf, [], [], none, n⟩

/-- A child, seen from its parent. -/
def element (n : Node) (slot : Nat) : Item → Element
  | .token c => .token (n.token slot c)
  | .node info children => .node (n.child slot info children)

/-- The children of a node, tokens included. -/
def elements (n : Node) : List Element := n.children.mapIdx n.element

/-- The child in the given place. -/
def elementAt? (n : Node) (slot : Nat) : Option Element := n.children[slot]?.map (n.element slot)

/-- The leaves of a cluster, seen from its parent. -/
def clusterTokens (n : Node) (slot : Nat) (c : Cluster) : List Token :=
  c.leading.map n.trivia ++ n.token slot c :: c.trailing.map n.trivia

mutual

/-- The tokens below the child in the given place, trivia included. -/
def tokensOf (n : Node) (slot : Nat) : Item → List Token
  | .token c => n.clusterTokens slot c
  | .node info children => tokensFrom (n.child slot info children) 0 children

/-- The tokens below the children from the given place on. -/
def tokensFrom (n : Node) (slot : Nat) : List Item → List Token
  | [] => []
  | i :: is => tokensOf n slot i ++ tokensFrom n (slot + 1) is

end

/-- All tokens of a node in source order, trivia included. -/
def tokens (n : Node) : List Token := tokensFrom n 0 n.children

mutual

/-- The nodes at and below the child in the given place, in preorder. -/
def nodesOf (n : Node) (slot : Nat) : Item → List Node
  | .token _ => []
  | .node info children =>
    let c := n.child slot info children
    c :: nodesFrom c 0 children

/-- The nodes at and below the children from the given place on. -/
def nodesFrom (n : Node) (slot : Nat) : List Item → List Node
  | [] => []
  | i :: is => nodesOf n slot i ++ nodesFrom n (slot + 1) is

end

/-- A node and all nodes below it, in preorder. -/
def descendants (n : Node) : List Node := n :: nodesFrom n 0 n.children

end Node

namespace Token

/-- The kind of a token. -/
def kind (t : Token) : Kind := t.leaf.kind

/-- The slot of the parent that a token fills. -/
def field (t : Token) : Option Field := t.leaf.field

/-- Where a token lies, trivia excluded. -/
def span (t : Token) : Span := t.leaf.span

/-- Where a token lies with its trivia. -/
def fullSpan (t : Token) : Span := Cluster.fullSpan ⟨t.leading, t.leaf, t.trailing⟩

/-- The text of a token with its trivia. -/
def fullText (t : Token) : Text := (t.leading ++ t.leaf :: t.trailing).flatMap Leaf.text

/-- Is the token trivia by its kind? -/
def isTrivia (t : Token) : Bool := t.kind.isTrivia

/-- Does a line break stand between this token and the one before it?  Block comments count only
with a line feed in them. -/
def hasLineBreakBefore (t : Token) : Bool :=
  t.leading.any fun l => l.kind == .newline || (l.kind == .blockComment && l.text.contains '\n')

/-- The pieces of trivia in front of a token. -/
def leadingTokens (t : Token) : List Token := t.leading.map t.parent.trivia

/-- The pieces of trivia behind a token. -/
def trailingTokens (t : Token) : List Token := t.trailing.map t.parent.trivia

/-- The next child of the parent. -/
def next? (t : Token) : Option Element := t.slot.bind fun slot => t.parent.elementAt? (slot + 1)

/-- The child of the parent before this one. -/
def prev? (t : Token) : Option Element :=
  match t.slot with
  | some (slot + 1) => t.parent.elementAt? slot
  | _ => none

end Token

namespace Element

/-- The kind of an element. -/
def kind : Element → Kind
  | .node n => n.kind
  | .token t => t.kind

/-- The slot of the parent that an element fills. -/
def field : Element → Option Field
  | .node n => n.field
  | .token t => t.field

/-- Where an element lies, trivia excluded. -/
def span : Element → Span
  | .node n => n.span
  | .token t => t.span

/-- Where an element lies with its trivia. -/
def fullSpan : Element → Span
  | .node n => n.fullSpan
  | .token t => t.fullSpan

/-- The node, if the element is one. -/
def node? : Element → Option Node
  | .node n => some n
  | .token _ => none

/-- The token, if the element is one. -/
def token? : Element → Option Token
  | .node _ => none
  | .token t => some t

/-- The node around an element. -/
def parent? : Element → Option Node
  | .node n => n.parent?
  | .token t => some t.parent

end Element

namespace Node

/-- The child nodes of a node. -/
def nodes (n : Node) : List Node := n.elements.filterMap Element.node?

/-- The tokens of a node that are no trivia by their kind. -/
def significantTokens (n : Node) : List Token := n.tokens.filter fun t => !t.isTrivia

/-- The text of a node with all its trivia. -/
def fullText (n : Node) : Text := n.tokens.flatMap fun t => t.leaf.text

/-- The children that fill a slot. -/
def inField (n : Node) (f : Field) : List Element := n.elements.filter fun e => e.field == some f

/-- The first child that fills a slot. -/
def field? (n : Node) (f : Field) : Option Element := (n.inField f).head?

/-- The first child node that fills a slot. -/
def nodeIn? (n : Node) (f : Field) : Option Node := (n.inField f).findSome? Element.node?

/-- The first child token that fills a slot. -/
def tokenIn? (n : Node) (f : Field) : Option Token := (n.inField f).findSome? Element.token?

/-- The first child token of a kind. -/
def tokenOfKind? (n : Node) (k : Kind) : Option Token :=
  (n.elements.filterMap Element.token?).find? fun t => t.kind == k

/-- The place of a node among its parent's children. -/
def slot? (n : Node) : Option Nat := n.above.head?.map Frame.slot

/-- The next child of the parent. -/
def next? (n : Node) : Option Element := do
  let parent ← n.parent?
  let slot ← n.slot?
  parent.elementAt? (slot + 1)

/-- The child of the parent before this one. -/
def prev? (n : Node) : Option Element := do
  let parent ← n.parent?
  match ← n.slot? with
  | 0 => none
  | slot + 1 => parent.elementAt? slot

/-- The next child node of the parent. -/
def nextNode? (n : Node) : Option Node := do
  let parent ← n.parent?
  let slot ← n.slot?
  (parent.elements.drop (slot + 1)).findSome? Element.node?

/-- The last child node of the parent before this one. -/
def prevNode? (n : Node) : Option Node := do
  let parent ← n.parent?
  let slot ← n.slot?
  (parent.elements.take slot).reverse.findSome? Element.node?

end Node

namespace Element

/-- The next child of the parent. -/
def next? : Element → Option Element
  | .node n => n.next?
  | .token t => t.next?

/-- The child of the parent before this one. -/
def prev? : Element → Option Element
  | .node n => n.prev?
  | .token t => t.prev?

/-- The text of an element: a node with all its trivia, a token without. -/
def display : Element → Text
  | .node n => n.fullText
  | .token t => t.leaf.text

end Element

/-- The text that a span of the tree's text holds. -/
def slice (t : Tree) (s : Span) : Text :=
  match t.text.splitAt? s.start with
  | some (_, behind) => ((behind.splitAt? (s.stop - s.start)).getD ([], [])).1
  | none => []

/-- The text of a node, trivia at its ends excluded. -/
def textOf (t : Tree) (n : Node) : Text := t.slice n.span

/-- All tokens of a tree in source order, trivia included. -/
def tokens (t : Tree) : List Token := t.root.tokens

/-- The comments of a tree in source order. -/
def comments (t : Tree) : List Token := t.tokens.filter fun t => t.kind.isComment

/-- The token before one, trivia included. -/
def prevToken? (t : Tree) (token : Token) : Option Token :=
  match token.leaf.index with
  | 0 => none
  | i + 1 => t.tokens[i]?

/-- The token behind one, trivia included. -/
def nextToken? (t : Tree) (token : Token) : Option Token := t.tokens[token.leaf.index + 1]?

end Tree

end ActionScript
