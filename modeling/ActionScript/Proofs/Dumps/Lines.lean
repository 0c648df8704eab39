import ActionScript.Command
import ActionScript.Proofs.Dumps.Skeletons
import ActionScript.Proofs.Navigation.Descent

/-!
# The lines of a dump

A dump has a line for every node and every token, and what it says of a token never breaks a line,
whatever the text of the token is.  So its lines can be counted and told apart: they are those of
the elements that a walk through the tree comes to, each with the level of its element in front.

* `Text.lines_unlines`: lines without a line break are read back from what is printed.
* `Tree.rows`: everything in a tree, in the order of a walk.
* `Tree.filterMap_node?_rows`, `Tree.filterMap_token?_rows`: the nodes of it are in preorder, and
  the tokens are all tokens, in order.
* `Tree.lines_dump`: **the lines of a dump are those of the elements.**
* `faithful_dumps_of_parseWithin`: both ways to print a tree are faithful.
-/

set_option autoImplicit false

namespace ActionScript

/-! ## Text without line breaks -/

namespace Text

/-- The text stays on one line. -/
def Inline (t : Text) : Prop := ∀ c ∈ t, c ≠ '\n' ∧ c ≠ '\r'

@[simp] theorem inline_nil : Inline [] := fun _ hc => absurd hc List.not_mem_nil

@[simp] theorem inline_cons {c : Char} {t : Text} :
    Inline (c :: t) ↔ (c ≠ '\n' ∧ c ≠ '\r') ∧ Inline t :=
  List.forall_mem_cons

@[simp] theorem inline_append {a b : Text} : Inline (a ++ b) ↔ Inline a ∧ Inline b :=
  List.forall_mem_append

/-- A line ends at the line feed behind it. -/
theorem lines_append_cons {l : Text} (h : l.Inline) (t : Text) :
    lines (l ++ '\n' :: t) = l :: lines t := by
  induction l with
  | nil => rw [List.nil_append, lines]
  | cons c l ih =>
    rw [inline_cons] at h
    rw [List.cons_append, lines, ih h.2]
    · exact h.1.1
    · intro cs hc
      exact absurd hc h.1.2

/-- **Lines are read back** from what is printed. -/
theorem lines_unlines {ls : List Text} (h : ∀ l ∈ ls, l.Inline) :
    lines (Command.unlines ls).toList = ls := by
  rw [Command.unlines, String.toList_ofList]
  induction ls with
  | nil => rfl
  | cons l ls ih =>
    rw [List.forall_mem_cons] at h
    rw [List.flatMap_cons, List.append_assoc, List.singleton_append, lines_append_cons h.1, ih h.2]

/-- Numbers stay on one line. -/
theorem inline_toDigits {b : Nat} (hb : 1 < b) (n : Nat) : Inline (Nat.toDigits b n) := by
  induction n using Nat.strongRecOn with
  | _ n ih =>
    rw [Nat.toDigits_eq_if hb]
    split
    · simp
    · rename_i hlarge
      simp [ih (n / b) (Nat.div_lt_self (by omega) hb)]

/-- **A character between quotes stays on one line**, also a line break. -/
theorem inline_escape (c : Char) : Inline (escape c) := by
  unfold escape
  split_ifs with _ _ hfeed hreturn
  case neg => simpa using And.intro hfeed hreturn
  all_goals simp [inline_toDigits (show 1 < 16 by decide)]

theorem inline_quoted (t : Text) : Inline t.quoted := by
  have hchars : Inline (t.flatMap escape) := by
    intro c hc
    obtain ⟨d, -, hd⟩ := List.mem_flatMap.1 hc
    exact inline_escape d c hd
  simp [quoted, hchars]

end Text

open Text

theorem inline_placed (k : Kind) (s : Span) : Inline (placed k s) := by
  have hlabel : Inline k.label.toList := fun c hc => by
    obtain ⟨hfeed, hreturn, -⟩ := Kind.isLabelChar_facts (Kind.isLabelChar_of_mem hc)
    exact ⟨hfeed, hreturn⟩
  simp [placed, Span.digits, hlabel, inline_toDigits (show 1 < 10 by decide)]

theorem inline_line (indent : Nat) (field : Option Field) {what : Text} (h : Inline what) :
    Inline (Item.line indent field what) := by
  have hlead : Inline (Field.lead field) := fun c hc => by
    obtain ⟨hfeed, hreturn, -⟩ := Field.lead_facts hc
    exact ⟨hfeed, hreturn⟩
  have hindent : Inline (List.replicate (2 * indent) ' ') := fun c hc => by
    rw [List.eq_of_mem_replicate hc]
    decide
  simp [Item.line, hindent, hlead, h]

namespace Tree

/-! ## Elements -/

/-- The line of an element in a dump: two blanks for each node around it, the slot if it fills one,
its kind, where it lies, and of a token the text between quotes. -/
def Element.line (e : Element) : Text :=
  List.replicate (2 * e.level) ' ' ++
    (match e.field with
      | none => []
      | some f => f.spelling.toList ++ ": ".toList) ++
    (e.kind.label.toList ++
      '@' :: (Nat.toDigits 10 e.span.start ++ "..".toList ++ Nat.toDigits 10 e.span.stop)) ++
    match e with
      | .node _ => []
      | .token t => ' ' :: t.leaf.text.quoted

/-- What is printed of a node is its line. -/
theorem Node.line_eq (n : Node) :
    (Element.node n).line = Item.line n.level n.info.field n.info.debug := by
  simp only [Item.line, Element.line, NodeInfo.debug, placed, Span.digits, List.append_nil]
  cases hfield : n.info.field <;>
    simp [Element.level, Element.field, Element.kind, Element.span, Node.field,
      Node.kind, Node.span, Field.lead, hfield]

/-- What is printed of a token is its line. -/
theorem Token.line_eq (t : Token) :
    (Element.token t).line = Item.line (t.parent.level + 1) t.leaf.field t.leaf.debug := by
  simp only [Item.line, Element.line, Leaf.debug, placed, Span.digits]
  cases hfield : t.leaf.field <;>
    simp [Element.level, Element.field, Element.kind, Element.span, Token.field, Token.kind,
      Token.span, Field.lead, hfield]

/-- The elements that a step of a walk comes to: the node that it enters, or a token with its
trivia. -/
def Step.rows : Step → List Element
  | .enter n => [.node n]
  | .token t => t.run.map .token
  | .leave _ => []

/-- The elements of a tree, trivia included, in the order of a walk. -/
def rows (t : Tree) : List Element := t.root.walk.flatMap Step.rows

theorem Element.inline_line (e : Element) : Inline e.line := by
  cases e with
  | node n =>
    rw [Node.line_eq]
    exact ActionScript.inline_line _ _ (inline_placed _ _)
  | token t =>
    rw [Token.line_eq]
    exact ActionScript.inline_line _ _ (by simp [Leaf.debug, inline_placed, inline_quoted])

/-- The nodes that the steps come to are those that they enter. -/
theorem Step.filterMap_node?_rows (steps : List Step) :
    (steps.flatMap Step.rows).filterMap Element.node? = steps.filterMap Step.entered? := by
  induction steps with
  | nil => rfl
  | cons step steps ih =>
    rw [List.flatMap_cons, List.filterMap_append, ih]
    cases step with
    | enter n => rfl
    | leave n => rfl
    | token t =>
      have hnone : (t.run.map Element.token).filterMap Element.node? = [] := by
        simp [List.filterMap_map, Function.comp_def, Element.node?]
      rw [Step.rows, hnone]
      rfl

namespace Node

theorem run_token (n : Node) (slot : Nat) (c : Cluster) :
    (n.token slot c).run = n.clusterTokens slot c := rfl

mutual

/-- The tokens that a walk comes to are those below the child, in their order. -/
theorem filterMap_token?_walkOf (n : Node) (slot : Nat) (i : Item) :
    ((n.walkOf slot i).flatMap Step.rows).filterMap Element.token? = n.tokensOf slot i := by
  cases i with
  | token c =>
    rw [walkOf, tokensOf, List.flatMap_singleton, Step.rows, run_token, List.filterMap_map]
    exact List.filterMap_some
  | node info children =>
    rw [walkOf, tokensOf]
    rw [List.flatMap_cons, List.flatMap_append, List.filterMap_append, List.filterMap_append,
      filterMap_token?_walkFrom _ 0 children]
    exact List.append_nil _

theorem filterMap_token?_walkFrom (n : Node) (slot : Nat) (is : List Item) :
    ((n.walkFrom slot is).flatMap Step.rows).filterMap Element.token? = n.tokensFrom slot is := by
  cases is with
  | nil => rw [walkFrom, tokensFrom]; rfl
  | cons i is =>
    rw [walkFrom, tokensFrom, List.flatMap_append, List.filterMap_append,
      filterMap_token?_walkOf n slot i, filterMap_token?_walkFrom n (slot + 1) is]

end

mutual

/-- The lines of a child are those of the elements that the walk through it comes to. -/
theorem map_line_walkOf (n : Node) (slot : Nat) (i : Item) :
    ((n.walkOf slot i).flatMap Step.rows).map Element.line = i.dump (n.level + 1) := by
  cases i with
  | token c =>
    rw [walkOf, Item.dump, List.flatMap_singleton, Step.rows, run_token, clusterTokens,
      Cluster.leaves, List.map_map, List.map_append, List.map_cons, List.map_append, List.map_cons,
      List.map_map, List.map_map]
    simp only [Function.comp_def, Token.line_eq]
    rfl
  | node info children =>
    rw [walkOf, Item.dump]
    rw [List.flatMap_cons, List.flatMap_append, List.map_append, List.map_append,
      map_line_walkFrom _ 0 children]
    exact congrArg₂ (· :: ·) (Node.line_eq _) (List.append_nil _)

theorem map_line_walkFrom (n : Node) (slot : Nat) (is : List Item) :
    ((n.walkFrom slot is).flatMap Step.rows).map Element.line = Item.dumpAll (n.level + 1) is := by
  cases is with
  | nil => rw [walkFrom, Item.dumpAll]; rfl
  | cons i is =>
    rw [walkFrom, Item.dumpAll, List.flatMap_append, List.map_append, map_line_walkOf n slot i,
      map_line_walkFrom n (slot + 1) is]

end

end Node

/-! ## Dumps -/

variable (t : Tree)

/-- **The nodes of the elements are all nodes, in preorder.** -/
theorem filterMap_node?_rows : t.rows.filterMap Element.node? = t.root.descendants := by
  rw [rows, Step.filterMap_node?_rows, Node.walk, Node.descendants, List.filterMap_cons,
    List.filterMap_append, Node.filterMap_entered?_walkFrom]
  exact congrArg (_ :: ·) (List.append_nil _)

/-- **The tokens of the elements are all tokens, in order.** -/
theorem filterMap_token?_rows : t.rows.filterMap Element.token? = t.tokens := by
  rw [rows, Node.walk, List.flatMap_cons, List.flatMap_append, List.filterMap_append,
    List.filterMap_append, Node.filterMap_token?_walkFrom]
  exact List.append_nil _

/-- A dump is made of the lines of the elements. -/
theorem map_line_rows : t.rows.map Element.line = t.dump := by
  rw [rows, Node.walk, List.flatMap_cons, List.flatMap_append, List.map_append, List.map_append,
    Node.map_line_walkFrom, dump, Item.dump]
  exact congrArg₂ (· :: ·) (Node.line_eq _) (List.append_nil _)

/-- **The lines of a dump are those of the elements.** -/
theorem lines_dump : Text.lines (Command.unlines t.dump).toList = t.rows.map Element.line := by
  rw [← map_line_rows]
  refine lines_unlines fun l hl => ?_
  obtain ⟨e, -, rfl⟩ := List.mem_map.1 hl
  exact e.inline_line

end Tree

variable {limits limits' : Limits} {text text' : Text} {p q : Parse}

/-- **Dumps are faithful.**  The s-expression of a tree tells its skeleton: the kinds and slots of
the nodes, and where the tokens without a reading stand among them.  The other dump has one line for
each node and each token, indented by its level: those of the nodes in preorder, those of the tokens
in order. -/
theorem faithful_dumps_of_parseWithin [Alphabet] (hp : parseWithin limits text = .ok p)
    (hq : parseWithin limits' text' = .ok q) :
    (p.tree.sexp = q.tree.sexp ↔ p.tree.skeleton = q.tree.skeleton) ∧
    Text.lines (Command.unlines p.tree.dump).toList = p.tree.rows.map Tree.Element.line ∧
    p.tree.rows.filterMap Tree.Element.node? = p.tree.root.descendants ∧
    p.tree.rows.filterMap Tree.Element.token? = p.tree.tokens :=
  ⟨sexp_eq_iff_of_parseWithin hp hq, p.tree.lines_dump, p.tree.filterMap_node?_rows,
    p.tree.filterMap_token?_rows⟩

/-- Two statements, with a comment and without: their s-expressions are the same, and the comment
has a line of its own. -/
theorem faithful_dumps_of_parseWithin_comment :
    ∃ p q, parseWithin {} "x; // c".toList = .ok p ∧ parseWithin {} "x ;".toList = .ok q ∧
      p.tree.sexp = "(source_file (expr_stmt expression: (ident)))".toList ∧
      p.tree.skeleton = q.tree.skeleton ∧
      Text.lines (Command.unlines p.tree.dump).toList =
        ["SOURCE_FILE@0..7", "  EXPR_STMT@0..2", "    expression: IDENT@0..1",
          "      NAME@0..1 \"x\"", "    SEMICOLON@1..2 \";\"", "    WHITESPACE@2..3 \" \"",
          "    LINE_COMMENT@3..7 \"// c\"", "  EOF@7..7 \"\""].map String.toList ∧
      p.tree.rows.filterMap Tree.Element.node? = p.tree.root.descendants ∧
      p.tree.rows.filterMap Tree.Element.token? = p.tree.tokens := by
  obtain ⟨p, hp, htest⟩ := exists_parse_of_test {} "x; // c".toList
    (fun p => p.tree.sexp == "(source_file (expr_stmt expression: (ident)))".toList &&
      p.tree.rows.map Tree.Element.line ==
        ["SOURCE_FILE@0..7", "  EXPR_STMT@0..2", "    expression: IDENT@0..1",
          "      NAME@0..1 \"x\"", "    SEMICOLON@1..2 \";\"", "    WHITESPACE@2..3 \" \"",
          "    LINE_COMMENT@3..7 \"// c\"", "  EOF@7..7 \"\""].map String.toList)
          (by decide +kernel)
  obtain ⟨q, hq, hsexp⟩ := exists_parse_of_test {} "x ;".toList
    (fun q => q.tree.sexp == "(source_file (expr_stmt expression: (ident)))".toList)
    (by decide +kernel)
  rw [Bool.and_eq_true, beq_iff_eq, beq_iff_eq] at htest
  rw [beq_iff_eq] at hsexp
  obtain ⟨hskeleton, hlines, hnodes, htokens⟩ := faithful_dumps_of_parseWithin hp hq
  exact ⟨p, q, hp, hq, htest.1, hskeleton.1 (htest.1.trans hsexp.symm), hlines.trans htest.2,
    hnodes, htokens⟩

end ActionScript
