import ActionScript.Tree.Node
import ActionScript.Text.Quoted

/-!
# Dumps

Two ways to print a tree.  The s-expression shows nodes and slots, and of the tokens only those
without a reading; the dump shows every node and token with its span, one a line.
-/

set_option autoImplicit false

namespace ActionScript

/-- A slot in front of what fills it. -/
def Field.lead : Option Field → Text
  | none => []
  | some f => f.spelling.toList ++ [':', ' ']

/-- A span as `start..stop`. -/
def Span.digits (s : Span) : Text := Nat.toDigits 10 s.start ++ '.' :: '.' :: Nat.toDigits 10 s.stop

/-- A kind and a span. -/
def placed (k : Kind) (s : Span) : Text := k.label.toList ++ '@' :: s.digits

/-- A leaf with its kind, span and quoted text. -/
def Leaf.debug (l : Leaf) : Text := placed l.kind l.span ++ ' ' :: l.text.quoted

/-- A node with its kind and span. -/
def NodeInfo.debug (i : NodeInfo) : Text := placed i.kind i.span

namespace Item

mutual

/-- The s-expression of a child, in front of `tail`. -/
def sexp (tail : Text) : Item → Text
  | .token c => if c.leaf.kind == .unknown then " (unknown)".toList ++ tail else tail
  | .node info children =>
    ' ' :: (Field.lead info.field ++
      '(' :: (info.kind.tag.toList ++ sexpAll (')' :: tail) children))

/-- The s-expressions of several children, in front of `tail`. -/
def sexpAll (tail : Text) : List Item → Text
  | [] => tail
  | i :: is => sexp (sexpAll tail is) i

end

/-- One line of a dump. -/
def line (indent : Nat) (field : Option Field) (what : Text) : Text :=
  List.replicate (2 * indent) ' ' ++ Field.lead field ++ what

mutual

/-- The lines of a child. -/
def dump (indent : Nat) : Item → List Text
  | .token c => c.leaves.map fun l => line indent l.field l.debug
  | .node info children => line indent info.field info.debug :: dumpAll (indent + 1) children

/-- The lines of several children. -/
def dumpAll (indent : Nat) : List Item → List Text
  | [] => []
  | i :: is => dump indent i ++ dumpAll indent is

end

end Item

namespace Tree

/-- The s-expression of a node. -/
def Node.sexp (n : Node) : Text := '(' :: (n.kind.tag.toList ++ Item.sexpAll [')'] n.children)

/-- The s-expression of a tree. -/
def sexp (t : Tree) : Text := t.root.sexp

/-- The lines of the dump of a tree. -/
def dump (t : Tree) : List Text := Item.dump 0 (.node t.info t.children)

/-- A tree by the size of its text and the number of its nodes. -/
def debug (t : Tree) : String :=
  "SyntaxTree \x7b text_len: " ++ toString t.text.size ++ ", nodes: " ++ toString t.nodeCount ++
    ", .. \x7d"

end Tree

end ActionScript
