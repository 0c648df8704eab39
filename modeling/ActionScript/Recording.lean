import ActionScript.Grammar.Recorder
import ActionScript.Parse

/-!
# Parsing by a record

A text is parsed with a record of entries.  At its end the record is told as a stream of events, and
the tree is built from that.  On the way each misuse of an entry is a fault, and so is a node that
was started and never completed, and a stream that makes up no tree.
-/

set_option autoImplicit false

namespace ActionScript.Recorder

/-- Applies a rule with so many levels of nesting left.  With none left, the next token is rejected
instead. -/
def apply [Alphabet] (limits : Limits) : (depth : Nat) → Rule → Recorder → Except Fault Recorder
  | 0, _, r =>
    ((Parser.reject .nestingTooDeep).record limits (fun _ r => .ok r) r).map Prod.snd
  | depth + 1, rule, r => ((Grammar.rule rule).record limits (apply limits depth) r).map Prod.snd

/-- The state behind a whole source file. -/
def run [Alphabet] (limits : Limits) (text : Text) : Except Fault Recorder :=
  (Grammar.sourceFile.record limits (apply limits limits.maxDepth) ⟨.start text, [], [], none⟩).map
    Prod.snd

/-- Builds the tree from the record, unless the parse has been stopped. -/
def finish (r : Recorder) (text : Text) : Except Fault (Except Abort Parse) :=
  if r.armed.isEmpty then
    match r.reader.aborted with
    | some reason => .ok (.error reason)
    | none => do
      let events ← Entry.settle r.entries
      match Tree.ofEvents? text events with
      | .ok tree => .ok (.ok ⟨tree, r.reader.reports.reverse⟩)
      | .error error => .error (.refused error)
  else .error .dropped

/-- Parses a text within limits, by a record. -/
def parse [Alphabet] (limits : Limits) (text : Text) : Except Fault (Except Abort Parse) := do
  (← run limits text).finish text

end ActionScript.Recorder
