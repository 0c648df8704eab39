import ActionScript.Grammar.Parser

/-!
# Names, lists and recovery

What many rules share: names, bracketed lists, and the ways a rule gets back in step with the text
after an error.  A statement ends at its semicolon, or without one before `}`, at the end of the
text and at a line break.
-/

set_option autoImplicit false

namespace ActionScript.Grammar

open ActionScript.Parser

/-- Tokens that close an enclosing construct; no rule swallows them while it recovers. -/
def closers : KindSet := .ofList [.rParen, .rBrack, .rCurly, .semicolon, .eof]

/-- Words that open a statement or a declaration; recovery between statements stops at them. -/
def statementWords : List String :=
  ["break", "case", "class", "const", "continue", "default", "do", "dynamic", "final", "for",
   "function", "if", "import", "include", "interface", "internal", "namespace", "override",
   "package", "private", "protected", "public", "return", "static", "switch", "throw", "try",
   "use", "var", "while"]

/-- Tokens that can open an expression, as read in operator mode. -/
def expressionFirst : KindSet :=
  .ofList [.name, .number, .string, .lParen, .lBrack, .lCurly, .bang, .tilde, .plus, .minus,
    .plus2, .minus2, .lt, .slash]

/-- Tokens that can open a statement, as read in operator mode. -/
def statementFirst : KindSet := expressionFirst.union (.single .semicolon)

/-- A name in a slot.  Recovery stops at `stops` and at all closers. -/
def name (field : Field) (stops : List Kind) : Parser Unit := do
  let found ← sees .name
  (if found then leaf .ident
   else rejectUnless ((KindSet.ofList stops).union closers) .expectedIdentifier)
  label field

/-- `a.b.c` behind its first name; it may end in `.*` if `wildcard` is set. -/
def nameTail (wildcard : Bool) : Parser Unit :=
  loop do
    if ← sees .dot then
      let g ← ahead 1
      if g.kind == .name then
        take none
        take none
        return true
      else if wildcard && g.kind == .star then
        take none
        take none
        return false
      else
        return false
    else
      return false

/-- `a.b.c` in a slot. -/
def qualifiedName (field : Field) (wildcard : Bool) : Parser Unit := do
  let found ← sees .name
  (if found then
    nodeOf .qualifiedName do
      take none
      nameTail wildcard
   else rejectUnless (.single .lCurly) .expectedName)
  label field

/-- What stands around and between the items of a list. -/
structure Brackets where
  opening : Kind
  closing : Kind
  /-- What is reported for a comma where an item should be. -/
  stray : SyntaxError
  /-- The tokens before which a comma is missed rather than the list ended. -/
  first : KindSet

/-- A list of items with commas in between.  `item` says whether there was one. -/
def delimited (b : Brackets) (item : Parser Bool) : Parser Unit := do
  require .operator b.opening
  take none
  loop do
    let k ← peek
    if k == b.closing || k == .eof then return false
    else if k == .comma then
      reject b.stray
      return true
    else
      let found ← item
      if !found then return false
      else
        let separated ← eat .comma
        if separated then return true
        else
          let k ← peek
          if b.first.contains k then
            expect .comma
            return true
          else
            return false
  expect b.closing

/-- Does a word that opens a statement come next? -/
def atStatementWord (g : Glimpse) : Bool := g.isOneOf statementWords

/-- Takes tokens into an error node: up to a semicolon, that included, or up to `}`, the end of the
text or a word that opens a statement. -/
def skipStatement : Parser Unit :=
  nodeOf .error <| loop do
    if ← eat .semicolon then return false
    else
      take none
      let g ← look .operator
      return !(g.kind == .rCurly || g.kind == .eof || atStatementWord g)

/-- The end of a statement. -/
def semicolon : Parser Unit := do
  let found ← eat .semicolon
  when (!found) do
    let g ← look .operator
    when (!(g.kind == .rCurly || g.kind == .eof || g.startsLine)) do
      report (.expected .semicolon)
      when (!atStatementWord g) skipStatement

/-- Statements up to a closing brace. -/
def statements : Parser Unit :=
  loop do
    let k ← peek
    if k == .rCurly || k == .eof then return false
    else
      call .statement
      return true

/-- Statements in braces, as a node of the given kind. -/
def braced (kind : Kind) : Parser Unit := do
  if ← sees .lCurly then
    nodeOf kind do
      take none
      statements
      expect .rCurly
  else missing (.expected .lCurly)

/-- A block. -/
def block : Parser Unit := braced .block

/-- A whole expression in a slot. -/
def expression (field : Field) : Parser Unit := callIn field (.expression .comma {})

/-- An expression that a comma ends, in a slot. -/
def assignment (field : Field) : Parser Unit :=
  callIn field (.expression .assignment { noSequence := true })

end ActionScript.Grammar
