import ActionScript.Grammar.Declarations
import ActionScript.Grammar.Elements

/-!
# Statements

A statement is recognised by its first token, a word statement by its first word.
-/

set_option autoImplicit false

namespace ActionScript.Grammar

open ActionScript.Parser

/-- A statement in a slot. -/
def statementIn (field : Field) : Parser Unit := callIn field .statement

/-- An expression as a statement. -/
def expressionStatement : Parser Unit :=
  nodeOf .exprStmt do
    expression .expression
    semicolon

/-- An expression in parentheses that belong to the statement. -/
def parenthesized (field : Field) : Parser Unit := do
  expect .lParen
  expression field
  expect .rParen

/-- `if`, with `else` if it comes next. -/
def ifStatement : Parser Unit :=
  nodeOf .ifStmt do
    takeWord .ifKw none
    parenthesized .condition
    statementIn .consequence
    clause? .elseKw .elseClause .alternative (statementIn .body)

/-- The statements of a clause of `switch`. -/
def clauseStatements : Parser Unit :=
  loop do
    let g ← look .operator
    if g.kind == .rCurly || g.kind == .eof || g.isWord "case" || g.isWord "default" then
      return false
    else
      statementIn .body
      return true

/-- A clause of `switch`. -/
def switchClause (g : Glimpse) : Parser Unit :=
  if g.isWord "case" then
    nodeOf .caseClause do
      takeWord .caseKw none
      expression .value
      expect .colon
      clauseStatements
  else if g.isWord "default" then
    nodeOf .defaultClause do
      takeWord .defaultKw none
      expect .colon
      clauseStatements
  else reject .expectedClause

/-- `switch`. -/
def switchStatement : Parser Unit :=
  nodeOf .switchStmt do
    takeWord .switchKw none
    parenthesized .value
    let found ← sees .lCurly
    (if found then
      nodeOf .switchBody do
        take none
        loop do
          let g ← look .operator
          if g.kind == .rCurly || g.kind == .eof then return false
          else
            switchClause g
            return true
        expect .rCurly
     else missing (.expected .lCurly))
    label .body

/-- The first clause of a `for`, if there is one. -/
def forHead : Parser Bool := do
  let g ← look .operator
  if g.isWord "var" || g.isWord "const" then
    variableHead
    return true
  else if g.kind == .semicolon then return false
  else
    call (.expression .comma { noIn := true })
    return true

/-- `for`, in all its forms.  Once the head turns out to be that of a `for … in`, the collection is
a whole expression. -/
def forStatement : Parser Unit :=
  node do
    takeWord .forKw none
    let each ← eatWord .eachKw
    expect .lParen
    let headed ← forHead
    let inFollows ← seesWord "in"
    if headed && inFollows then
      label .left
      takeWord .inKw none
      expression .right
      expect .rParen
      statementIn .body
      return (if each then .forEachInStmt else .forInStmt, ())
    else
      when each (report (.expected .inKw))
      when headed (label .initializer)
      expect .semicolon
      when (!(← sees .semicolon)) (expression .condition)
      expect .semicolon
      when (!(← sees .rParen)) (expression .update)
      expect .rParen
      statementIn .body
      return (.forStmt, ())

/-- `while`. -/
def whileStatement : Parser Unit :=
  nodeOf .whileStmt do
    takeWord .whileKw none
    parenthesized .condition
    statementIn .body

/-- `do`; it needs no terminator. -/
def doStatement : Parser Unit :=
  nodeOf .doStmt do
    takeWord .doKw none
    statementIn .body
    expectWord .whileKw
    parenthesized .condition
    let _ ← eat .semicolon

/-- `with`. -/
def withStatement : Parser Unit :=
  nodeOf .withStmt do
    takeWord .withKw none
    parenthesized .object
    statementIn .body

/-- A block in the body slot. -/
def bodyBlock : Parser Unit := do
  block
  label .body

/-- `catch (e : T) { … }`. -/
def catchClause : Parser Unit := do
  nodeOf .catchClause do
    takeWord .catchKw none
    expect .lParen
    name .parameter [.colon]
    typeAscription? .type
    expect .rParen
    bodyBlock
  label .handler

/-- `catch` clauses, as long as they come next. -/
def catchClauses : Parser Unit :=
  loop do
    if ← seesWord "catch" then
      catchClause
      return true
    else
      return false

/-- `try`; at least one clause has to follow. -/
def tryStatement : Parser Unit :=
  nodeOf .tryStmt do
    takeWord .tryKw none
    bodyBlock
    let caught ← seesWord "catch"
    catchClauses
    let finished ← seesWord "finally"
    clause? .finallyKw .finallyClause .finalizer bodyBlock
    when (!caught && !finished) (report .expectedHandler)

/-- `break` and `continue`, with a label only on the same line. -/
def jumpStatement (keyword kind : Kind) : Parser Unit :=
  nodeOf kind do
    takeWord keyword none
    let g ← look .operator
    when (g.kind == .name && !g.startsLine) (name .label [])
    semicolon

/-- `return` and `throw`.  A line break ends them before their value. -/
def valueStatement (keyword kind : Kind) : Parser Unit :=
  nodeOf kind do
    takeWord keyword none
    let g ← look .operator
    when (!(g.kind == .semicolon || g.kind == .rCurly || g.kind == .eof || g.startsLine))
      (expression .value)
    semicolon

/-- `label: statement`. -/
def labeledStatement : Parser Unit :=
  nodeOf .labeledStmt do
    name .label []
    expect .colon
    statementIn .body

/-- A statement that opens with a word of no other meaning: a declaration, a labeled statement or an
expression. -/
def plainWordStatement : Parser Unit := do
  match ← nextDeclaration? with
  | some keyword => declaration keyword
  | none =>
    let second ← ahead 1
    if second.kind == .colon then
      let third ← ahead 2
      if statementFirst.contains third.kind then labeledStatement else expressionStatement
    else expressionStatement

/-- A statement that opens with a word. -/
def wordStatement (g : Glimpse) : Parser Unit :=
  match Kind.ofWord? g.text with
  | some .ifKw => ifStatement
  | some .switchKw => switchStatement
  | some .forKw => forStatement
  | some .whileKw => whileStatement
  | some .doKw => doStatement
  | some .withKw => withStatement
  | some .tryKw => tryStatement
  | some .breakKw => jumpStatement .breakKw .breakStmt
  | some .continueKw => jumpStatement .continueKw .continueStmt
  | some .returnKw => valueStatement .returnKw .returnStmt
  | some .throwKw => valueStatement .throwKw .throwStmt
  | some .importKw => importStatement
  | some .includeKw => includeDirective
  | some .packageKw => packageDeclaration
  | some .useKw => do
    let next ← ahead 1
    if next.isWord "namespace" then useNamespaceDirective else plainWordStatement
  | some .elseKw | some .catchKw | some .finallyKw | some .caseKw | some .defaultKw =>
    reject (.unexpectedWord g.text)
  | _ => plainWordStatement

/-- A statement. -/
def statementRule : Parser Unit := do
  let g ← look .exprStart
  match g.kind with
  | .lCurly => block
  | .semicolon => leaf .emptyStmt
  | .lBrack => do
    if ← seesAnnotatedDeclaration then annotated else expressionStatement
  | .name => wordStatement g
  | .rCurly | .eof => missing .expectedStatement
  | .rParen => reject (.unexpected .rParen)
  | .rBrack => reject (.unexpected .rBrack)
  | .colon => reject (.unexpected .colon)
  | _ => expressionStatement

/-- A whole source file.  A brace that closes nothing is reported and skipped. -/
def sourceFile : Parser Unit :=
  nodeOf .sourceFile do
    loop do
      let k ← peek
      if k == .eof then return false
      else if k == .rCurly then
        reject .unmatchedBrace
        return true
      else
        call .statement
        return true
    take none

/-- The parser of each rule. -/
def rule : Rule → Parser Unit
  | .statement => statementRule
  | .expression min r => expressionRule min r
  | .unary => unaryRule
  | .construction => constructionRule
  | .type => typeRule
  | .element => elementRule

end ActionScript.Grammar
