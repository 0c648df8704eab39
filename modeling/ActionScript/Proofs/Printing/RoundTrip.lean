import ActionScript.Proofs.Printing.Operators

/-!
# Printing and parsing

Printed in parentheses, every expression is parsed without a fault into the tree that it stands for.

* `State.at_run_statements`: where the repetition of statements leads, there a whole parse does.
* `Expr.legible`: every expression is legible, by induction on how it is built.
* `parseWithin_enclosed`: **the round trip.**
-/

set_option autoImplicit false

namespace ActionScript

open ActionScript.Parser ActionScript.Grammar Trivia

/-! ## Whole texts -/

section

variable [Alphabet]

namespace Setting

variable {limits : Limits}

/-- A statement that neither is missing nor begins with a brace takes a round. -/
theorem goes_statementRound {depth : Nat} {rest : Text} (hkind : rest.ahead ∉ [Kind.eof, .rCurly])
    {made : List Shape} {d : Spot}
    (h : (atDepth limits depth).Goes statementRule ⟨rest, .operator, made⟩ () d) (mode : Mode) :
    (atDepth limits (depth + 1)).Goes statementRound ⟨rest, mode, made⟩ true d := by
  simp only [List.mem_cons, List.not_mem_nil, or_false, not_or] at hkind
  refine (goes_peek _ _ _).bind
    (.of_neg (by simpa using hkind.1) (.of_neg (by simpa using hkind.2) ?_))
  exact (goes_call .statement h).bind (goes_pure _ _)

/-- The repetition stops at the end of the text. -/
theorem goes_statementRound_end {E : Setting} {rest : Text} (heof : rest.ahead = .eof) (mode : Mode)
    (made : List Shape) :
    E.Goes statementRound ⟨rest, mode, made⟩ false ⟨rest, .operator, made⟩ := by
  refine (goes_peek _ _ _).bind (.of_pos ?_ (goes_pure _ _))
  rw [heof]
  rfl

end Setting

/-- Nothing but the end is read where a text ends. -/
theorem Mode.reads_eof : Mode.operator.Reads [] .eof [] [] [] := by
  rintro ⟨offset, rest⟩ rfl
  exact ⟨rfl, rfl⟩

/-- **Where the repetition of statements leads, there a whole parse does**, and it takes the end of
the text. -/
theorem State.at_run_statements {limits : Limits} (hl : limits.Endless) {text rest : Text}
    {shapes : List Shape} {lead : List Trivia}
    (hrounds : (Setting.atDepth limits limits.maxDepth).Rounds statementRound ⟨text, .operator, []⟩
      ⟨rest, .operator, shapes⟩)
    (heof : Mode.operator.ReadsBehind lead rest .eof [] [] []) :
    (State.run limits text).At ⟨[], .operator,
      [.node .sourceFile none (.token .eof none lead [] [] :: shapes).reverse]⟩ := by
  let E := Setting.atDepth limits limits.maxDepth
  have hstart : ((State.start text).enter E.limits []).At ⟨text, .operator, []⟩ :=
    State.At.enter (c := ⟨text, .operator, []⟩) hl ⟨rfl, rfl, rfl, rfl, rfl⟩ []
  have hloop := (Setting.goes_loop hrounds _ hstart Setting.runs_statements.1).2
  change (E.after sourceFile (State.start text)).At _
  rw [sourceFile_eq, Setting.after_nodeOf, Setting.after_bind, Setting.after_take,
    State.At.token_kind hloop heof]
  exact (hloop.takeAs hl heof .eof none).close [] .sourceFile

namespace Expr

open Phrase Setting Shape

variable {limits : Limits}

/-! ## Every expression is legible -/

/-- An expression is legible with so many levels, and free of `in` unless it is bare. -/
abbrev IsLegible (limits : Limits) (n : Nat) (e : Expr) : Prop :=
  Legible limits n e.tier (!e.bareIn) e.shape

mutual

/-- **Every expression is legible**, with four levels for each level of its height. -/
theorem legible (hl : limits.Endless) (e : Expr) : e.IsLegible limits (4 * e.height) := by
  cases e with
  | reference target => exact legibleReference hl target
  | number k => exact legible_number hl k _ _
  | array elements =>
    unfold IsLegible
    rw [height, Nat.mul_succ]
    exact legible_array hl (legibleAll hl elements) _
  | object properties =>
    unfold IsLegible
    rw [height, Nat.mul_succ]
    exact legible_object hl (legibleOfProperties hl properties) _
  | call function arguments =>
    have hfunction := (legible hl function).bracket_primary hl false
    refine ((hfunction.mono ?_).call hl (fun depth hdepth => ?_) _).legible hfunction.opens
    · rw [height]
      omega
    · rw [height] at hdepth
      exact readsItem_shapesAll hl (legibleAll hl arguments) (by omega) .argument
  | leading op argument =>
    unfold IsLegible
    rw [height, Nat.mul_succ]
    exact (legible_leading hl op (legible hl argument) _).mono (by omega)
  | trailing argument op =>
    have hargument := (legible hl argument).bracket_primary hl false
    refine ((hargument.mono ?_).update hl op _).legible hargument.opens
    rw [height]
    omega
  | binary op left right =>
    have hleft := ((legible hl left).mono (n := 4 * max left.height right.height)
      (by omega)).bracket hl op.tier.leftFloor
    have hright := (legible hl right).mono (n := 4 * max left.height right.height) (by omega)
    unfold IsLegible
    rw [height, Nat.mul_succ]
    refine ((hleft.binary hl (Precedence.le_rank_fit op.tier.leftFloor_le_primary) (Nat.le_succ _)
      hright fun hfree => ?_).legible hleft.opens).mono (Nat.le_succ _)
    simpa [bareIn, looserThan, and_assoc] using hfree
  | conditional condition consequence alternative =>
    have hmono {e : Expr} (hle : e.height ≤ max condition.height
        (max consequence.height alternative.height)) (he : e.IsLegible limits (4 * e.height)) :=
      he.mono (Nat.mul_le_mul_left 4 hle)
    have hcondition := (hmono (by omega) (legible hl condition)).bracket hl
      Precedence.ternary.leftFloor
    unfold IsLegible
    rw [height, Nat.mul_succ]
    refine ((hcondition.conditional hl (Precedence.le_rank_fit (Precedence.leftFloor_le_primary _))
      (Nat.le_succ _) (hmono (by omega) (legible hl consequence))
      (hmono (by omega) (legible hl alternative)) fun hfree => ?_).legible hcondition.opens).mono
      (Nat.le_succ _)
    have hparts := by simpa [bareIn, looserThan] using hfree
    simpa [looserThan] using ⟨hparts.1.1, hparts.2⟩
  | assign op target value =>
    have htarget := (legibleReference hl target).mono
      (n := 4 * max (heightOfReference target) value.height) (by omega)
    have hvalue := (legible hl value).mono
      (n := 4 * max (heightOfReference target) value.height) (by omega)
    unfold IsLegible
    rw [height, Nat.mul_succ]
    refine ((htarget.assign hl (by omega) hvalue fun hfree => ?_).legible htarget.opens).mono
      (Nat.le_succ _)
    simpa [bareIn, looserThan] using hfree
  | sequence left right =>
    have hleft := (legible hl left).mono (n := 4 * max left.height right.height) (by omega)
    have hright := (legible hl right).mono (n := 4 * max left.height right.height) (by omega)
    unfold IsLegible
    rw [height, Nat.mul_succ]
    refine ((hleft.sequence hl (by omega) hright fun hfree => ?_).legible hleft.opens).mono
      (Nat.le_succ _)
    simpa [bareIn, looserThan] using hfree

theorem legibleReference (hl : limits.Endless) (r : Reference) :
    Legible limits (4 * heightOfReference r) .primary (!bareInReference r)
      (shapeOfReference r) := by
  cases r with
  | name k => exact legible_name hl k _ _
  | member base property =>
    have hbase := (legible hl base).bracket_primary hl false
    refine ((hbase.mono ?_).member hl property _).legible hbase.opens
    rw [heightOfReference]
    omega
  | subscript base index =>
    have hbase := (legible hl base).bracket_primary hl false
    refine ((hbase.mono ?_).subscript hl (legible hl index) ?_ _).legible hbase.opens
    all_goals
      rw [heightOfReference]
      omega

theorem legibleAll (hl : limits.Endless) (es : List Expr) :
    ∀ e ∈ es, e.IsLegible limits (4 * heightAll es) := by
  match es with
  | [] => exact fun e he => absurd he List.not_mem_nil
  | e :: es =>
    rw [heightAll]
    intro f hf
    rcases List.mem_cons.1 hf with heq | hf
    · rw [heq]
      exact (legible hl e).mono (by omega)
    · exact (legibleAll hl es f hf).mono (by omega)

theorem legibleOfProperties (hl : limits.Endless) (ps : List Property) :
    ∀ e ∈ values ps, e.IsLegible limits (4 * heightOfProperties ps) := by
  match ps with
  | [] => exact fun e he => absurd he List.not_mem_nil
  | .mk key value :: properties =>
    rw [heightOfProperties]
    intro f hf
    rcases List.mem_cons.1 hf with heq | hf
    · rw [heq]
      exact (legible hl value).mono (by omega)
    · exact (legibleOfProperties hl properties f hf).mono (by omega)

end

/-! ## The statement around an expression -/

/-- An expression in parentheses, as a statement. -/
def enclosed (e : Expr) : Text := '(' :: e.print ++ [')', ';']

/-- The statement that is meant. -/
def statement (e : Expr) : Shape :=
  .node .exprStmt none
    [(parens [] e.shape []).withField .expression, sign .semicolon none []]

/-- The root that is meant: the statement, and the end of the text. -/
def program (e : Expr) : Stem := ⟨.sourceFile, none, [.token .eof none [] [] [], e.statement]⟩

theorem source_statement (e : Expr) : e.statement.source = e.enclosed := by
  have hnone : flatten [] = [] := rfl
  have hopen : Kind.lParen.text = ['('] := rfl
  have hclose : Kind.rParen.text = [')'] := rfl
  have hend : Kind.semicolon.text = [';'] := rfl
  simp only [statement, source, sourceAll, source_withField, source_parens, source_sign,
    source_shape_nil, hnone, hopen, hclose, hend, enclosed, List.append_assoc, List.append_nil,
    List.cons_append, List.nil_append]

theorem enclosed_eq (e : Expr) : e.enclosed =
    (parens [] e.shape []).source ++ ((sign .semicolon none []).source ++ []) := by
  rw [← source_statement, statement, source, sourceAll, sourceAll, sourceAll, source_withField]

variable (hl : limits.Endless) (e : Expr)
include hl

/-- The text begins with a parenthesis, before an operand and after one. -/
theorem reads_enclosed (mode : Mode) (hmode : mode = .operator ∨ mode = .exprStart) :
    ∃ more, mode.Reads e.enclosed .lParen Kind.lParen.text [] more := by
  have hends :
      Ends [] ((sign .rParen none []).source ++ ((sign .semicolon none []).source ++ [])) :=
    ends_nil (by decide)
  have hread := Mode.reads_lParen hmode (.inr rfl) ((legible hl e).opens [] _ hends).solid
  rw [← source_parens_append, ← enclosed_eq] at hread
  exact ⟨_, hread⟩

/-- **The statement is read again.** -/
theorem goes_statement {depth : Nat} (hdepth : 4 * e.height + 4 ≤ depth) (mode : Mode)
    (made : List Shape) :
    (atDepth limits depth).Goes statementRule ⟨e.enclosed, mode, made⟩ ()
      ⟨[], .operator, e.statement :: made⟩ := by
  have hends : Ends [] ((sign .semicolon none []).source ++ []) := ends_nil (by decide)
  obtain ⟨more, hread⟩ := reads_enclosed hl e .exprStart (.inr rfl)
  have hparens := ((legible hl e).parens hl (.inr rfl) false).goes_closed hdepth hends
    (by rw [Mode.reads_semicolon.ahead]; decide) .exprStart []
  have hstatement :
      (atDepth limits depth).Goes expressionStatement ⟨e.enclosed, .exprStart, made⟩ ()
      ⟨[], .operator, e.statement :: made⟩ := by
    refine goes_nodeOf hl ?_
    rw [enclosed_eq]
    refine (goes_callIn hparens).bind ?_
    exact (goes_eat hl Mode.reads_semicolon).bind (.of_neg (by simp) (goes_pure _ _))
  exact (goes_look_reads _ _ _ _ hread).bind hstatement

/-- **The repetition of statements** takes the statement, and stops at the end of the text. -/
theorem rounds_statements {depth : Nat} (hdepth : 4 * e.height + 5 ≤ depth) :
    (atDepth limits depth).Rounds statementRound ⟨e.enclosed, .operator, []⟩
      ⟨[], .operator, [e.statement]⟩ := by
  obtain ⟨below, rfl⟩ : ∃ below, depth = below + 1 := ⟨depth - 1, by omega⟩
  obtain ⟨more, hread⟩ := reads_enclosed hl e .operator (.inl rfl)
  have hstatement := goes_statement hl e (by omega : _ ≤ below) .operator []
  refine .more (goes_statementRound ?_ hstatement .operator)
    (.last (goes_statementRound_end rfl .operator _))
  rw [hread.ahead]
  decide

end Expr

/-! ## The round trip -/

namespace State

variable {limits : Limits}

/-- Behind the end of the text stands the statement that is meant. -/
theorem at_run_enclosed (hl : limits.Endless) (e : Expr)
    (hdepth : 4 * e.height + 5 ≤ limits.maxDepth) :
    (State.run limits e.enclosed).At ⟨[], .operator, [e.program.shape]⟩ :=
  at_run_statements hl (Expr.rounds_statements hl e hdepth) Mode.reads_eof

end State

/-- **Printing and parsing an expression.**  An expression that is printed with parentheses where
the precedence of operators asks for them, inside parentheses and with a semicolon behind them, is
parsed without a diagnostic into the statement that it stands for, if nesting is not limited below
its height. -/
theorem parseWithin_enclosed {limits : Limits} (hl : limits.Endless) (e : Expr)
    (hdepth : 4 * e.height + 5 ≤ limits.maxDepth) :
    parseWithin limits e.enclosed = .ok ⟨Tree.ofStem e.enclosed e.program, []⟩ := by
  have hat := State.at_run_enclosed hl e hdepth
  have hsource : Shape.sourceAll [e.statement, .token .eof none [] [] []] = e.enclosed := by
    rw [Shape.sourceAll, e.source_statement, Shape.sourceAll, Shape.source]
    exact List.append_nil _
  have hbuild := Tree.ofEvents?_eventsAll .sourceFile none [e.statement, .token .eof none [] [] []]
  rw [hsource] at hbuild
  have hroot : [e.program.shape].reverse =
    [Shape.node .sourceFile none [e.statement, .token .eof none [] [] []]] := rfl
  have htree : Tree.ofEvents? e.enclosed (Shape.eventsAll [e.program.shape].reverse) =
      .ok (Tree.ofStem e.enclosed e.program) := by
    rw [hroot]
    exact hbuild
  simp only [parseWithin, hat.aborted, hat.children, hat.reports, htree, List.reverse_nil]

end

/-- A sum has to be put in parentheses to be a factor. -/
theorem parseWithin_enclosed_product : ∃ e : Expr, e.enclosed = "(( a + 1 ) * b);".toList ∧
    parseWithin {} e.enclosed = .ok ⟨Tree.ofStem e.enclosed e.program, []⟩ := by
  let a : Name := ⟨['a'], ⟨'a', [], rfl, by decide +kernel, rfl⟩, by decide +kernel⟩
  let b : Name := ⟨['b'], ⟨'b', [], rfl, by decide +kernel, rfl⟩, by decide +kernel⟩
  let sum : Expr := .binary ⟨.plus, .additive, rfl, by decide⟩ (.reference (.name a))
    (.number ⟨['1'], by decide, rfl⟩)
  refine ⟨.binary ⟨.star, .multiplicative, rfl, by decide⟩ sum (.reference (.name b)), rfl, ?_⟩
  exact parseWithin_enclosed (Limits.endless_maxDepth _) _ (by decide)

end ActionScript
