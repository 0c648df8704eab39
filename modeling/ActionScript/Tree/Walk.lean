import ActionScript.Tree.Node

/-!
# Walks

A walk tells a tree from a node down: it enters a node, meets its tokens, and leaves it.
`Node.walk` gives the whole walk; `Walk` takes it step by step and can leave out what is below the
node it entered last.
-/

set_option autoImplicit false

namespace ActionScript.Tree

/-- One step of a walk. -/
inductive Step where
  | enter (n : Node)
  | leave (n : Node)
  | token (t : Token)

namespace Node

mutual

/-- The walk through the child in the given place. -/
def walkOf (n : Node) (slot : Nat) : Item → List Step
  | .token c => [.token (n.token slot c)]
  | .node info children =>
    let c := n.child slot info children
    .enter c :: (walkFrom c 0 children ++ [.leave c])

/-- The walk through the children from the given place on. -/
def walkFrom (n : Node) (slot : Nat) : List Item → List Step
  | [] => []
  | i :: is => walkOf n slot i ++ walkFrom n (slot + 1) is

end

/-- The walk through a node and everything below it. -/
def walk (n : Node) : List Step := .enter n :: (walkFrom n 0 n.children ++ [.leave n])

end Node

/-- A walk under way: the node it starts from, until that is entered, and the entered nodes,
innermost first, with the children still to come. -/
structure Walk where
  pending : Option Node
  entered : List (Node × List Element)

namespace Walk

/-- The walk from a node. -/
def start (n : Node) : Walk := ⟨some n, []⟩

/-- Takes one step. -/
def next? (w : Walk) : Option (Step × Walk) :=
  match w.entered with
  | [] => w.pending.map fun n => (.enter n, ⟨none, [(n, n.elements)]⟩)
  | (n, []) :: outer => some (.leave n, { w with entered := outer })
  | (n, .token t :: more) :: outer => some (.token t, { w with entered := (n, more) :: outer })
  | (n, .node c :: more) :: outer =>
    some (.enter c, { w with entered := (c, c.elements) :: (n, more) :: outer })

/-- Leaves out the rest of the innermost node, its end included.  There has to be one. -/
def skip? (w : Walk) : Option Walk :=
  match w.entered with
  | [] => none
  | _ :: outer => some { w with entered := outer }

/-- Takes steps until one is no token.  A token costs one of `limit`. -/
def nextNode? : (limit : Nat) → Walk → Option (Step × Walk)
  | 0, _ => none
  | limit + 1, w =>
    match w.next? with
    | some (.token _, w) => nextNode? limit w
    | other => other

/-- The tokens a walk could meet before it enters or leaves a node. -/
def tokensAhead (w : Walk) : Nat :=
  match w.entered with
  | (_, es) :: _ => es.length
  | [] => 0

/-- Takes steps until one enters or leaves a node. -/
def stepNode? (w : Walk) : Option (Step × Walk) := nextNode? (w.tokensAhead + 1) w

end Walk

end ActionScript.Tree
