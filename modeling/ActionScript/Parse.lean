import ActionScript.Grammar.Exec
import ActionScript.Grammar.Statements
import ActionScript.Tree.Basic

/-!
# Parsing

A parse turns a text into a tree and a list of diagnostics.  Every text has a tree: what does not
fit becomes error nodes, and each is explained by a diagnostic.  Only the limits can stop a parse.
-/

set_option autoImplicit false

namespace ActionScript

/-- Applies a rule with so many levels of nesting left.  With none left, the next token is rejected
instead. -/
def State.apply [Alphabet] (limits : Limits) : (depth : Nat) → Rule → State → State
  | 0, _, s => ((Parser.reject .nestingTooDeep).exec limits (fun _ s => s) s).2
  | depth + 1, rule, s => ((Grammar.rule rule).exec limits (State.apply limits depth) s).2

/-- The state behind a whole source file. -/
def State.run [Alphabet] (limits : Limits) (text : Text) : State :=
  (Grammar.sourceFile.exec limits (State.apply limits limits.maxDepth) (.start text)).2

/-- A finished parse.  The diagnostics are in the order in which they were found. -/
structure Parse where
  tree : Tree
  diagnostics : List Diagnostic

/-- Is there anything wrong with the text? -/
def Parse.hasErrors (p : Parse) : Bool := p.tree.hasErrors || !p.diagnostics.isEmpty

/-- Why a parse gives no tree. -/
inductive ParseFailure where
  /-- A limit was reached. -/
  | aborted (reason : Abort)
  /-- The nodes do not make up a tree over the text. -/
  | unbuildable (error : BuildError)
  deriving DecidableEq, Repr

/-- Parses a text within limits. -/
def parseWithin [Alphabet] (limits : Limits) (text : Text) : Except ParseFailure Parse :=
  let s := State.run limits text
  match s.aborted with
  | some reason => .error (.aborted reason)
  | none =>
    match Tree.ofEvents? text (Shape.eventsAll s.children.reverse) with
    | .ok tree => .ok ⟨tree, s.reports.reverse⟩
    | .error e => .error (.unbuildable e)

/-- Parses a text with nothing but the usual limit on nesting. -/
def parse [Alphabet] (text : Text) : Except ParseFailure Parse := parseWithin {} text

end ActionScript
