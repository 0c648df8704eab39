import ActionScript.Diagnostic.Basic
import ActionScript.Field
import ActionScript.Grammar.Precedence
import ActionScript.Kind.Set

/-!
# Parsers

A parser is a term: what to look at, what to take, which nodes to make.  All rules of the grammar
are written with the same few instructions, so what holds of each instruction holds of every
parser by one induction.

Recursion goes through `call`, which names a rule and costs one level of nesting; repetition goes
through `loop`.  A node is made around a whole parser, so nodes nest by construction.
-/

set_option autoImplicit false

namespace ActionScript

/-- What narrows the operators of an expression. -/
structure Restrictions where
  /-- `in` is no operator, as in the first clause of `for`. -/
  noIn : Bool := false
  /-- A comma ends the expression. -/
  noSequence : Bool := false
  deriving DecidableEq, Repr

/-- The restrictions on an operand: a comma ends it. -/
def Restrictions.operand (r : Restrictions) : Restrictions := { r with noSequence := true }

/-- The rules that can contain themselves. -/
inductive Rule where
  | statement
  /-- An expression whose operators bind at least as tightly as `min`. -/
  | expression (min : Precedence) (r : Restrictions)
  | unary
  /-- `new` and what follows it. -/
  | construction
  | type
  /-- An XML element. -/
  | element
  deriving DecidableEq, Repr

/-- What a parser can see of a token. -/
structure Glimpse where
  kind : Kind
  text : Text
  startsLine : Bool
  deriving DecidableEq, Repr

/-- Is it the given word? -/
def Glimpse.isWord (g : Glimpse) (word : String) : Bool :=
  g.kind == .name && g.text == word.toList

/-- Is it one of the given words? -/
def Glimpse.isOneOf (g : Glimpse) (words : List String) : Bool :=
  g.kind == .name && words.any fun w => g.text == w.toList

/-- Parsers that yield a value. -/
inductive Parser : Type → Type 1 where
  | done {α : Type} (value : α) : Parser α
  | andThen {α β : Type} (first : Parser β) (next : β → Parser α) : Parser α
  /-- Looks at the next token, read in a mode.  It stays in that mode until it is taken or looked
  at in another one. -/
  | look (mode : Mode) : Parser Glimpse
  /-- Looks some tokens ahead, all read in operator mode; the next token is at distance zero. -/
  | ahead (distance : Nat) : Parser Glimpse
  /-- Takes the next token into a slot, whatever it is. -/
  | take (field : Option Field) : Parser Unit
  /-- Takes the next token as the given keyword; that it is the word for it is up to the caller. -/
  | takeWord (keyword : Kind) (field : Option Field) : Parser Unit
  /-- Reports an error at the next token. -/
  | report (error : SyntaxError) : Parser Unit
  /-- Makes a node of what a parser takes; the parser says of which kind. -/
  | node {α : Type} (body : Parser (Kind × α)) : Parser α
  /-- Puts the element made last into a slot of a new node, and goes on inside that node. -/
  | wrap (field : Field) (body : Parser Kind) : Parser Unit
  /-- Puts the element made last into a slot. -/
  | label (field : Field) : Parser Unit
  /-- Repeats a parser while it says so. -/
  | loop (body : Parser Bool) : Parser Unit
  /-- Applies a rule one level deeper. -/
  | call (rule : Rule) : Parser Unit
  /-- Requires the next token, read in a mode, to be of a kind; its caller has seen to that. -/
  | require (mode : Mode) (kind : Kind) : Parser Unit

namespace Parser

instance : Monad Parser where
  pure := .done
  bind := .andThen

/-- Runs a parser only under a condition. -/
def when (condition : Bool) (p : Parser Unit) : Parser Unit := if condition then p else pure ()

/-- The kind of the next token in operator mode. -/
def peek : Parser Kind := return (← look .operator).kind

/-- Is the next token of a kind, in operator mode? -/
def sees (kind : Kind) : Parser Bool := return (← peek) == kind

/-- Is the next token of a kind, in the given mode? -/
def seesIn (mode : Mode) (kind : Kind) : Parser Bool := return (← look mode).kind == kind

/-- Is the next token the given word? -/
def seesWord (word : String) : Parser Bool := return (← look .operator).isWord word

/-- Makes a node of the given kind. -/
def nodeOf (kind : Kind) (body : Parser Unit) : Parser Unit :=
  node do
    body
    return (kind, ())

/-- Makes a node of one token. -/
def leaf (kind : Kind) : Parser Unit := nodeOf kind (take none)

/-- Makes a node of one keyword. -/
def wordLeaf (keyword kind : Kind) : Parser Unit := nodeOf kind (takeWord keyword none)

/-- Takes a token of a kind if it comes next. -/
def eat (kind : Kind) : Parser Bool := do
  if ← sees kind then
    take none
    return true
  else
    return false

/-- Takes a keyword if it comes next. -/
def eatWord (keyword : Kind) : Parser Bool := do
  let g ← look .operator
  if g.kind == .name && keyword.spells g.text then
    takeWord keyword none
    return true
  else
    return false

/-- Reports an error and marks with an empty node where something is missing. -/
def missing (error : SyntaxError) : Parser Unit := do
  report error
  nodeOf .error (pure ())

/-- Reports an error and takes the next token into an error node.  At the end of the text nothing
is taken. -/
def reject (error : SyntaxError) : Parser Unit := do
  if ← sees .eof then missing error
  else
    report error
    leaf .error

/-- Like `reject`, but leaves the tokens of a set to an enclosing rule. -/
def rejectUnless (stops : KindSet) (error : SyntaxError) : Parser Unit := do
  let k ← peek
  if stops.contains k || k == .eof then missing error else reject error

/-- Takes a token of a kind, read in the given mode; says whether it was there. -/
def expectIn (mode : Mode) (kind : Kind) : Parser Bool := do
  if ← seesIn mode kind then
    take none
    return true
  else
    missing (.expected kind)
    return false

/-- Takes a token of a kind, or reports that it is missing. -/
def expect (kind : Kind) : Parser Unit := do
  let _ ← expectIn .operator kind

/-- Takes a keyword, or reports that it is missing. -/
def expectWord (keyword : Kind) : Parser Unit := do
  when (!(← eatWord keyword)) (missing (.expected keyword))

/-- Applies a rule and puts what it makes into a slot. -/
def callIn (field : Field) (rule : Rule) : Parser Unit := do
  call rule
  label field

end Parser

end ActionScript
