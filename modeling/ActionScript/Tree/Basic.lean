import ActionScript.Tree.Event

/-!
# Trees

A syntax tree is a shape laid out over its text: every token and every node knows where it lies and
its number.  Tokens are numbered in source order, pieces of trivia included, and nodes in preorder.

A node's own span reaches over the spans of its children; a node without children lies at the end
of the last token before it.  Its full span takes in the trivia of its tokens.
-/

set_option autoImplicit false

namespace ActionScript

/-- A token or a piece of trivia in its place. -/
structure Leaf where
  index : Nat
  kind : Kind
  field : Option Field
  start : Nat
  text : Text
  deriving DecidableEq, Repr

/-- Where a leaf lies. -/
def Leaf.span (l : Leaf) : Span := ⟨l.start, l.start + l.text.size⟩

/-- A token with the pieces of trivia that belong to it. -/
structure Cluster where
  leading : List Leaf
  leaf : Leaf
  trailing : List Leaf
  deriving DecidableEq, Repr

namespace Cluster

/-- All leaves of a cluster in source order. -/
def leaves (c : Cluster) : List Leaf := c.leading ++ c.leaf :: c.trailing

/-- From the first piece to the last one. -/
def fullSpan (c : Cluster) : Span :=
  ⟨(c.leading.head?.getD c.leaf).start, (c.trailing.getLast?.getD c.leaf).span.stop⟩

end Cluster

/-- What a node knows of itself. -/
structure NodeInfo where
  index : Nat
  kind : Kind
  field : Option Field
  span : Span
  full : Span
  deriving DecidableEq, Repr

/-- A child in its place. -/
inductive Item where
  | token (cluster : Cluster)
  | node (info : NodeInfo) (children : List Item)
  deriving Repr

/-- Where a child lies, trivia excluded. -/
def Item.span : Item → Span
  | .token c => c.leaf.span
  | .node info _ => info.span

/-- How far the layout of a tree has come: the offset of the next piece of text, the numbers of the
next leaf and the next node, and where the last token ended. -/
structure Progress where
  offset : Nat := 0
  leaves : Nat := 0
  nodes : Nat := 0
  tokenEnd : Nat := 0
  deriving DecidableEq, Repr

namespace Progress

/-- Lays out one leaf. -/
def leaf (p : Progress) (kind : Kind) (field : Option Field) (text : Text) : Leaf × Progress :=
  (⟨p.leaves, kind, field, p.offset, text⟩,
    { p with offset := p.offset + text.size, leaves := p.leaves + 1 })

/-- Lays out pieces of trivia. -/
def trivia (p : Progress) : List Trivia → List Leaf × Progress
  | [] => ([], p)
  | t :: ts =>
    let (leaf, p) := p.leaf t.kind.kind none t.text
    let (leaves, p) := trivia p ts
    (leaf :: leaves, p)

/-- Lays out a token. -/
def cluster (p : Progress) (kind : Kind) (field : Option Field) (leading : List Trivia)
    (text : Text) (trailing : List Trivia) : Cluster × Progress :=
  let (before, p) := p.trivia leading
  let (leaf, p) := p.leaf kind field text
  let (behind, p) := { p with tokenEnd := p.offset }.trivia trailing
  (⟨before, leaf, behind⟩, p)

/-- What a node knows once its children are laid out between `p` and `q`. -/
def info (p q : Progress) (kind : Kind) (field : Option Field) (children : List Item) : NodeInfo :=
  let span :=
    match children with
    | [] => .point q.tokenEnd
    | c :: cs => cs.foldl (fun s c => s.cover c.span) c.span
  ⟨p.nodes, kind, field, span, ⟨p.offset, q.offset⟩⟩

mutual

/-- Lays out a shape. -/
def lay (p : Progress) : Shape → Item × Progress
  | .token kind field leading text trailing =>
    let (cluster, q) := p.cluster kind field leading text trailing
    (.token cluster, q)
  | .node kind field children =>
    let (items, q) := layAll { p with nodes := p.nodes + 1 } children
    (.node (info p q kind field items) items, q)

/-- Lays out several shapes in a row. -/
def layAll (p : Progress) : List Shape → List Item × Progress
  | [] => ([], p)
  | s :: ss =>
    let (item, p) := lay p s
    let (items, p) := layAll p ss
    (item :: items, p)

end

end Progress

/-- A syntax tree: its text, what the root knows, and the children of the root. -/
structure Tree where
  text : Text
  info : NodeInfo
  children : List Item
  hasErrors : Bool
  /-- The number of nodes. -/
  nodeCount : Nat
  /-- The number of tokens, trivia included. -/
  leafCount : Nat

namespace Tree

/-- Lays a finished root out over its text. -/
def ofStem (text : Text) (root : Stem) : Tree :=
  let children := root.children.reverse
  let (items, q) := Progress.layAll { nodes := 1 } children
  { text
    info := Progress.info {} q root.kind root.field items
    children := items
    hasErrors := root.shape.hasErrors
    nodeCount := q.nodes
    leafCount := q.leaves }

/-- The tree that a stream of events tells over a text. -/
def ofEvents? (text : Text) (events : List Event) : Except BuildError Tree := do
  let b ← (Builder.run ⟨text, [], none⟩ events 0).mapError Prod.fst
  let root ← b.complete?
  return ofStem text root

end Tree

end ActionScript
