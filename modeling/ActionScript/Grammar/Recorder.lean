import ActionScript.Grammar.Exec
import ActionScript.Tree.Entry

/-!
# Recording what a parser does

The same parsers as in `ActionScript.Grammar.Exec`, run with a record of entries in place of the
children of the open node.  A node is started by a marker, and the marker is used up when the node
is completed; a node goes around the one completed last by a link from there.  Every misuse of a
marker is a fault.
-/

set_option autoImplicit false

namespace ActionScript

/-- The state of a parse that is recorded. -/
structure Recorder where
  /-- What is read, reported and counted.  It gathers no children. -/
  reader : State
  /-- The record, the first entry first. -/
  entries : List Entry := []
  /-- The positions of the nodes that are started and not completed, the last one first. -/
  armed : List Nat := []
  /-- The position of the node completed last, unless a token has been taken since or a node been
  started. -/
  last : Option Nat := none

namespace Recorder

/-- Starts a node at the end of the record. -/
def begin (r : Recorder) (limits : Limits) : Recorder where
  reader := r.reader.beginNode limits
  entries := r.entries ++ [.start .placeholder]
  armed := r.entries.length :: r.armed

/-- Completes the node that was started at a position. -/
def complete (r : Recorder) (position : Nat) (kind : Kind) : Except Fault Recorder :=
  (Entry.amend r.entries position ({ · with kind })).map fun entries =>
    { r with entries := entries ++ [.finish], armed := r.armed.erase position, last := position }

/-- Puts the node completed last into a slot. -/
def labelLast (r : Recorder) (field : Field) : Except Fault Recorder :=
  match r.last with
  | none => .error .nothingCompleted
  | some last =>
    (Entry.amend r.entries last ({ · with field })).map fun entries => { r with entries }

/-- Starts a node around the one completed last. -/
def precede (r : Recorder) (limits : Limits) : Except Fault Recorder :=
  match r.last with
  | none => .error .nothingCompleted
  | some last =>
    let outer := r.begin limits
    (Entry.amend outer.entries last
      ({ · with forward := r.entries.length - last })).map fun entries => { outer with entries }

/-- Takes the next token under the given kind. -/
def takeAs [Alphabet] (r : Recorder) (limits : Limits) (kind : Kind)
    (field : Option Field) : Recorder :=
  { r with
    reader := { r.reader.takeAs limits kind field with children := [] }
    entries := r.entries ++ [.token r.reader.token kind field]
    last := none }

/-- Repeats a step while it says so, at most `limit` times. -/
def repeatWhile (step : Recorder → Except Fault (Bool × Recorder)) :
    (limit : Nat) → Recorder → Except Fault Recorder
  | 0, _ => .error .endless
  | limit + 1, r =>
    match step r with
    | .error fault => .error fault
    | .ok (true, r) => repeatWhile step limit r
    | .ok (false, r) => .ok r

end Recorder

/-- Runs a parser and records what it does, given what the rules it calls do. -/
def Parser.record [Alphabet] (limits : Limits) (apply : Rule → Recorder → Except Fault Recorder)
    {α : Type} :
    Parser α → Recorder → Except Fault (α × Recorder)
  | .done value, r => .ok (value, r)
  | .andThen first next, r => do
    let (value, r) ← record limits apply first r
    record limits apply (next value) r
  | .look mode, r =>
    .ok (State.glimpse (r.reader.place.next mode).1, { r with reader := { r.reader with mode } })
  | .ahead distance, r =>
    .ok (State.glimpse (State.tokenAhead distance r.reader.place),
      { r with reader := { r.reader with mode := .operator } })
  | .take field, r => .ok ((), r.takeAs limits r.reader.token.kind field)
  | .takeWord keyword field, r => .ok ((), r.takeAs limits keyword field)
  | .report error, r => .ok ((), { r with reader := r.reader.report error })
  | .node body, r => do
    let ((kind, value), inner) ← record limits apply body (r.begin limits)
    return (value, ← inner.complete r.entries.length kind)
  | .wrap field body, r => do
    let r ← r.labelLast field
    let (kind, inner) ← record limits apply body (← r.precede limits)
    return ((), ← inner.complete r.entries.length kind)
  | .label field, r => return ((), ← r.labelLast field)
  | .loop body, r =>
    return ((), ← Recorder.repeatWhile (fun r => record limits apply body r)
      (r.reader.place.rest.length + 1) r)
  | .call rule, r => return ((), ← apply rule r)
  | .require mode kind, r =>
    let broken := r.reader.broken || (r.reader.place.next mode).1.kind != kind
    .ok ((), { r with reader := { r.reader with broken } })

end ActionScript
