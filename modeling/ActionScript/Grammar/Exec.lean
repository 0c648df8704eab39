import ActionScript.Grammar.Parser
import ActionScript.Token.Lexer
import ActionScript.Tree.Shape

/-!
# Running parsers

A parser runs on a state: where to read, the mode of the next token, what the open node holds so
far, and what has been reported.  Reading is pure, so looking at a token changes nothing but the
mode it will be taken in.

A parse can be stopped: by a limit on the number of nodes, counted as they are begun, or by a
deadline, asked about every now and then.  The first reason counts.  From then on the text is at its
end, so that all rules wind up.
-/

set_option autoImplicit false

namespace ActionScript

/-- Limits on a parse. -/
structure Limits where
  /-- How deeply rules may nest. -/
  maxDepth : Nat := 256
  /-- How many nodes may be begun. -/
  maxNodes : Option Nat := none
  /-- Has the deadline passed by the time that so many tokens are taken? -/
  late : Nat → Bool := fun _ => false

/-- Why a parse gives no tree. -/
inductive Abort where
  | nodeLimit (limit : Nat)
  | deadline
  deriving DecidableEq, Repr

/-- The wording of an abort. -/
def Abort.message : Abort → String
  | .nodeLimit limit => "syntax tree exceeds the limit of " ++ toString limit ++ " nodes"
  | .deadline => "parse deadline exceeded"

/-- The state of a parse. -/
structure State where
  /-- Where the next token is read. -/
  place : Place
  /-- The mode the next token was last looked at in. -/
  mode : Mode := .operator
  /-- The children of the open node, the last one first. -/
  children : List Shape := []
  /-- What has been reported, the last one first. -/
  reports : List Diagnostic := []
  /-- The number of nodes begun. -/
  begun : Nat := 0
  /-- The number of tokens taken. -/
  taken : Nat := 0
  aborted : Option Abort := none
  /-- Has a loop gone on without leaving its place, or for longer than the text has characters? -/
  stalled : Bool := false
  /-- Has a requirement been broken? -/
  broken : Bool := false

namespace State

/-- The beginning of a parse. -/
def start (text : Text) : State := { place := .start text }

/-- The next token in the mode it was last looked at in. -/
def token [Alphabet] (s : State) : Token := (s.place.next s.mode).1

/-- What a parser sees of a token. -/
def glimpse (t : Token) : Glimpse := ⟨t.kind, t.text, t.startsLine⟩

/-- The token at a distance from a place, in operator mode.  The end of the text is at every
distance from there on. -/
def tokenAhead [Alphabet] : Nat → Place → Token
  | 0, place => (place.next .operator).1
  | n + 1, place =>
    let (token, behind) := place.next .operator
    if token.kind == .eof then token else tokenAhead n behind

/-- Stops a parse, unless it has been stopped. -/
def abort (s : State) (reason : Abort) : State :=
  match s.aborted with
  | some _ => s
  | none => { s with aborted := some reason, place := s.place.finish, mode := .operator }

/-- Begins a node. -/
def beginNode (s : State) (limits : Limits) : State :=
  let s := { s with begun := s.begun + 1 }
  match limits.maxNodes with
  | some limit => if limit < s.begun then s.abort (.nodeLimit limit) else s
  | none => s

/-- Reports an error at the next token, unless the parse has been stopped. -/
def report [Alphabet] (s : State) (error : SyntaxError) : State :=
  match s.aborted with
  | some _ => s
  | none => { s with reports := ⟨.syntactic error, s.token.span⟩ :: s.reports }

/-- How many tokens are taken from one look at the deadline to the next. -/
def deadlineInterval : Nat := 128

/-- Takes the next token under the given kind. -/
def takeAs [Alphabet] (s : State) (limits : Limits) (kind : Kind) (field : Option Field) : State :=
  let (token, behind) := s.place.next s.mode
  let shape := Shape.token kind field token.leading token.text token.trailing
  let reports :=
    match token.flaw with
    | some flaw => ⟨.lexical flaw.error, flaw.span⟩ :: s.reports
    | none => s.reports
  let after :=
    { s with place := behind, mode := .operator, children := shape :: s.children, reports,
             taken := s.taken + 1 }
  if s.taken % deadlineInterval == 0 && limits.late s.taken then after.abort .deadline else after

/-- Makes a node of the children gathered since `outer`. -/
def close (s : State) (outer : List Shape) (kind : Kind) : State :=
  { s with children := .node kind none s.children.reverse :: outer }

/-- Puts the last child into a slot. -/
def labelLast (s : State) (field : Field) : State :=
  match s.children with
  | [] => s
  | c :: cs => { s with children := c.withField field :: cs }

/-- Notes a step that goes on where it was. -/
def noteStall (before after : State) : State :=
  { after with stalled := after.stalled || after.place.offset ≤ before.place.offset }

/-- Repeats a step while it says so, at most `limit` times. -/
def repeatWhile (step : State → Bool × State) : (limit : Nat) → State → State
  | 0, s => { s with stalled := true }
  | limit + 1, s =>
    match step s with
    | (true, t) => repeatWhile step limit (s.noteStall t)
    | (false, t) => t

end State

/-- Runs a parser, given what the rules it calls do. -/
def Parser.exec [Alphabet] (limits : Limits) (apply : Rule → State → State) {α : Type} :
    Parser α → State → α × State
  | .done value, s => (value, s)
  | .andThen first next, s =>
    let (value, s) := exec limits apply first s
    exec limits apply (next value) s
  | .look mode, s => (State.glimpse (s.place.next mode).1, { s with mode })
  | .ahead distance, s =>
    (State.glimpse (State.tokenAhead distance s.place), { s with mode := .operator })
  | .take field, s => ((), s.takeAs limits s.token.kind field)
  | .takeWord keyword field, s => ((), s.takeAs limits keyword field)
  | .report error, s => ((), s.report error)
  | .node body, s =>
    let ((kind, value), inner) :=
      exec limits apply body { s.beginNode limits with children := [] }
    (value, inner.close s.children kind)
  | .wrap field body, s =>
    let (last, outer) := (s.children.take 1, s.children.drop 1)
    let (kind, inner) :=
      exec limits apply body
        { s.beginNode limits with children := last.map (Shape.withField field) }
    ((), inner.close outer kind)
  | .label field, s => ((), s.labelLast field)
  | .loop body, s =>
    ((), State.repeatWhile (fun s => exec limits apply body s) (s.place.rest.length + 1) s)
  | .call rule, s => ((), apply rule s)
  | .require mode kind, s =>
    ((), { s with broken := s.broken || (s.place.next mode).1.kind != kind })

end ActionScript
