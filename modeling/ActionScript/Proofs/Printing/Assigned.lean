import ActionScript.Proofs.Printing.Lookahead

/-!
# Values that are assigned

An operand that takes no trivia behind it is a phrase like any other.  Assigned to a name, as a
statement, it is parsed without a fault into the tree that is meant.

* `Shape.readable_assignment`, `Shape.goes_statement`: **the assignment is read again**, and so is
  the statement.
* `Shape.parseWithin_assigned`: **the round trip** up to the tree.
-/

set_option autoImplicit false

namespace ActionScript

open ActionScript.Parser ActionScript.Grammar Trivia

namespace Shape

open Phrase Setting

/-! ## What is meant -/

/-- A shape as a phrase: it takes nothing that stands behind it. -/
abbrev phrase (w : Shape) : Phrase := fun _ => w

variable [Alphabet]

/-- The text of a shape that is assigned to a name, as a statement. -/
def assigned (x : Name) (w : Shape) : Text := x.text ++ ' ' :: '=' :: ' ' :: w.source ++ [';']

/-- The assignment, as a phrase. -/
def assignment (x : Name) (w : Shape) : Phrase :=
  heads (Expr.shapeOfReference (.name x)) .assignExpr .left fun _ =>
    [sign .eq none gap, w.withField .right]

/-- The statement that is meant. -/
def statement (x : Name) (w : Shape) : Shape :=
  .node .exprStmt none [(assignment x w []).withField .expression, sign .semicolon none []]

/-- The root that is meant: the statement, and the end of the text. -/
def program (x : Name) (w : Shape) : Stem :=
  ⟨.sourceFile, none, [.token .eof none [] [] [], statement x w]⟩

omit [Alphabet] in
theorem source_value_append (w : Shape) (more : Text) :
    sourceAll [w.withField .right] ++ more = w.source ++ more := by
  rw [sourceAll, sourceAll, source_withField, List.append_nil]

theorem source_assignment_append (x : Name) (w : Shape) (tail : List Trivia) (more : Text) :
    (assignment x w tail).source ++ more = x.text ++ ' ' :: '=' :: ' ' :: (w.source ++ more) := by
  have heq : Kind.eq.text = ['='] := rfl
  rw [assignment, source_heads_append, Expr.shapeOfReference, source_ident_append, sourceAll,
    List.append_assoc, source_value_append, source_sign_append, heq, flatten_gap]
  rfl

theorem source_statement (x : Name) (w : Shape) : (statement x w).source = assigned x w := by
  have hend : Kind.semicolon.text = [';'] := rfl
  rw [statement, source, sourceAll, source_withField, source_assignment_append,
    sourceAll, sourceAll, source_sign, hend, flatten_nil, assigned]
  simp

theorem assigned_eq (x : Name) (w : Shape) :
    assigned x w = (assignment x w []).source ++ ((sign .semicolon none []).source ++ []) := by
  have hend : Kind.semicolon.text = [';'] := rfl
  rw [source_assignment_append, source_sign, hend, flatten_nil, assigned]
  simp

/-! ## The assignment is read again -/

variable {limits : Limits} {n : Nat} {w : Shape} (hl : limits.Endless)
  (hw : Legible limits n .primary true w.phrase)
include hl hw

theorem readable_assignment (x : Name) :
    Readable limits (n + 1) .assignment true (assignment x w) := by
  refine ((readable_name hl x (.inl rfl) 0 true).operation hl (k := .eq) (p := .assignment) rfl
    (by decide) (Nat.zero_le _) (fun _ => ⟨by decide, rfl⟩) ?_ ?_).toReadable
  · intro tail more hends
    rw [source_value_append]
    exact (hw.opens tail more hends).solid
  · intro depth hdepth r _ tail more hends hfollows made
    have hread := Mode.operator.reads_sign .eq rfl (ends_gap (hw.opens tail more hends).solid) none
    have hnext : more.Follows Precedence.assignment.rightFloor ∧ more.Stops .assignment r.operand :=
      hfollows.right rfl _
    have hright := hw.goes_expression (by omega) .assignment r.operand (by decide) (fun _ => rfl)
      (fun _ => by decide) hends ⟨hnext.1.mono (by decide), hnext.2⟩ .operator
      (sign .eq none gap :: made)
    rw [source_value_append]
    exact (goes_take hl hread none).bind ((goes_callIn hright).bind (goes_pure _ _))

/-! ## The statement is read again -/

omit hl in
/-- In code the name is read, and behind it the assignment goes on. -/
theorem reads_assigned (mode : Mode) (hcode : mode.isCode = true) (x : Name) :
    ∃ more : Text, more.Solid ∧ more.ahead = .eq ∧
      mode.Reads (assigned x w) .name x.text gap more := by
  have heq : Kind.eq.text = ['='] := rfl
  have hends := ends_gap (hw.opens [] [';'] (ends_nil (by decide))).solid
  have hsolid := Mode.operator.solid_sign .eq rfl none gap (w.source ++ [';'])
  have hsource : assigned x w =
      x.text ++ (flatten gap ++ ((sign .eq none gap).source ++ (w.source ++ [';']))) := by
    simp [assigned, flatten_gap, source_sign, heq]
  refine ⟨_, hsolid, (Mode.operator.reads_sign .eq rfl hends none).ahead, ?_⟩
  rw [hsource]
  exact Mode.reads_of_isWord hcode x.isWord_text (ends_gap hsolid)

/-- **The statement is read again.**  Behind its name nothing comes that would make it a declaration
or a label. -/
theorem goes_statement (x : Name) {depth : Nat} (hdepth : n + 3 ≤ depth) (mode : Mode)
    (made : List Shape) :
    (atDepth limits depth).Goes statementRule ⟨assigned x w, mode, made⟩ ()
      ⟨[], .operator, statement x w :: made⟩ := by
  have hends : Ends [] ((sign .semicolon none []).source ++ []) := ends_nil (by decide)
  have hexpression := (readable_assignment hl hw x).goes_closed hdepth hends
    (by rw [Mode.reads_semicolon.ahead]; decide) .operator []
  rw [← assigned_eq] at hexpression
  have hstatement : (atDepth limits depth).Goes expressionStatement
      ⟨assigned x w, .operator, made⟩ () ⟨[], .operator, statement x w :: made⟩ :=
    goes_nodeOf hl <| (goes_callIn hexpression).bind <|
      (goes_eat hl Mode.reads_semicolon).bind (.of_neg (by simp) (goes_pure _ _))
  have hword : wordStatement ⟨.name, x.text, false⟩ = plainWordStatement := by
    rw [wordStatement, x.isFree.1]
  obtain ⟨more, hsolid, hahead, hread⟩ := reads_assigned hw .operator rfl x
  have hwords : Text.EndsWords more := by
    intro hname
    rw [Text.ahead] at hahead
    rw [hahead] at hname
    cases hname
  have hcolon : more.ahead ≠ .colon := by
    rw [hahead]
    decide
  obtain ⟨_, -, -, hfirst⟩ := reads_assigned hw .exprStart rfl x
  refine (goes_look_reads _ _ _ _ hfirst).bind ?_
  change (atDepth limits depth).Goes (wordStatement _) _ _ _
  rw [hword]
  exact goes_plainWordStatement hread Text.arePlain_nil (by simp) (settled_of_solid hsolid) hwords
    hcolon hstatement _

/-- **The repetition of statements** takes the statement, and stops at the end of the text. -/
theorem rounds_statements (x : Name) {depth : Nat} (hdepth : n + 4 ≤ depth) :
    (atDepth limits depth).Rounds statementRound ⟨assigned x w, .operator, []⟩
      ⟨[], .operator, [statement x w]⟩ := by
  obtain ⟨below, rfl⟩ : ∃ below, depth = below + 1 := ⟨depth - 1, by omega⟩
  have hstatement := goes_statement hl hw x (by omega : _ ≤ below) .operator []
  refine .more (goes_statementRound ?_ hstatement .operator)
    (.last (goes_statementRound_end rfl .operator _))
  obtain ⟨_, -, -, hread⟩ := reads_assigned hw .operator rfl x
  rw [hread.ahead]
  decide

/-- **Parsing a value that is assigned to a name** gives the tree that is meant, without a
diagnostic, if nesting is not limited below what the value takes. -/
theorem parseWithin_assigned (x : Name) (hdepth : n + 4 ≤ limits.maxDepth) :
    parseWithin limits (assigned x w) =
      .ok ⟨Tree.ofStem (assigned x w) (program x w), []⟩ := by
  have hat := State.at_run_statements hl (rounds_statements hl hw x hdepth) Mode.reads_eof
  have hsource : sourceAll [statement x w, .token .eof none [] [] []] = assigned x w := by
    rw [sourceAll, source_statement, sourceAll, source]
    exact List.append_nil _
  have hbuild :=
    Tree.ofEvents?_eventsAll .sourceFile none [statement x w, .token .eof none [] [] []]
  rw [hsource] at hbuild
  have htree : Tree.ofEvents? (assigned x w)
      (eventsAll
        [Shape.node .sourceFile none [.token .eof none [] [] [], statement x w].reverse].reverse) =
      .ok (Tree.ofStem (assigned x w) (program x w)) :=
    hbuild
  simp only [parseWithin, hat.aborted, hat.children, hat.reports, htree, List.reverse_nil]

end Shape

end ActionScript
