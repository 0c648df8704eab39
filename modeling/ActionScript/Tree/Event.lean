import ActionScript.Tree.Shape

/-!
# Events

A tree can be told as a stream of events: a node starts, a token comes, a node ends.  `Builder`
listens to such a stream and cuts the text of each token from the source as it goes, so a stream
that does not fit its text is refused at the first event that goes wrong.

* `Builder.run` and `Builder.complete?` together accept a stream or name the fault.
* `Shape.events` tells a shape as a stream.
-/

set_option autoImplicit false

namespace ActionScript

/-- A piece of trivia by kind and length in bytes. -/
structure Measure where
  kind : TriviaKind
  size : Nat
  deriving DecidableEq, Repr

/-- The length of a piece. -/
def Trivia.measure (t : Trivia) : Measure := ⟨t.kind, t.text.size⟩

/-- One step in telling a tree. -/
inductive Event where
  | start (kind : Kind) (field : Option Field)
  | token (kind : Kind) (field : Option Field) (leading : List Measure) (size : Nat)
      (trailing : List Measure)
  | finish
  deriving DecidableEq, Repr

namespace Shape

mutual

/-- The stream that tells a shape. -/
def events : Shape → List Event
  | .token kind field leading text trailing =>
    [.token kind field (leading.map Trivia.measure) text.size (trailing.map Trivia.measure)]
  | .node kind field children => .start kind field :: (eventsAll children ++ [.finish])

/-- The stream that tells several shapes in a row. -/
def eventsAll : List Shape → List Event
  | [] => []
  | s :: ss => s.events ++ eventsAll ss

end

end Shape

/-- Why a stream is refused. -/
inductive BuildError where
  /-- A node starts when the root is already finished. -/
  | secondRoot
  /-- A node ends that never started. -/
  | nothingOpen
  /-- A token stands outside of all nodes. -/
  | strayToken
  /-- A piece of text ends inside a character or behind the text. -/
  | brokenCharacter
  /-- Some node has not ended. -/
  | unfinished
  /-- There is no node at all. -/
  | noRoot
  /-- The tokens end before the text does. -/
  | uncovered
  /-- The work is given up while nodes are open. -/
  | abandoned
  deriving DecidableEq, Repr

/-- A node with the children told so far, the last one first. -/
structure Stem where
  kind : Kind
  field : Option Field
  children : List Shape

/-- The shape of a node all of whose children have been told. -/
def Stem.shape (s : Stem) : Shape := .node s.kind s.field s.children.reverse

/-- A listener: the text that is still to come, the open nodes, innermost first, and the root once
it is finished. -/
structure Builder where
  rest : Text
  opened : List Stem := []
  root : Option Stem := none

namespace Builder

/-- Cuts one piece of the given length. -/
def cut (rest : Text) (size : Nat) : Except BuildError (Text × Text) :=
  match rest.splitAt? size with
  | some parts => .ok parts
  | none => .error .brokenCharacter

/-- Cuts pieces of trivia. -/
def cutAll : Text → List Measure → Except BuildError (List Trivia × Text)
  | rest, [] => .ok ([], rest)
  | rest, m :: ms => do
    let (text, rest) ← cut rest m.size
    let (pieces, rest) ← cutAll rest ms
    return (⟨m.kind, text⟩ :: pieces, rest)

/-- Hears one event. -/
def hear (b : Builder) : Event → Except BuildError Builder
  | .start kind field =>
    match b.opened, b.root with
    | [], some _ => .error .secondRoot
    | _, _ => .ok { b with opened := ⟨kind, field, []⟩ :: b.opened }
  | .token kind field leading size trailing =>
    match b.opened with
    | [] => .error .strayToken
    | stem :: outer => do
      let (leading, rest) ← cutAll b.rest leading
      let (text, rest) ← cut rest size
      let (trailing, rest) ← cutAll rest trailing
      let token := Shape.token kind field leading text trailing
      return { b with rest, opened := { stem with children := token :: stem.children } :: outer }
  | .finish =>
    match b.opened with
    | [] => .error .nothingOpen
    | [stem] => .ok { b with opened := [], root := some stem }
    | stem :: parent :: outer =>
      .ok { b with opened := { parent with children := stem.shape :: parent.children } :: outer }

/-- Hears a whole stream.  A fault comes with the number of events heard before it. -/
def run : Builder → List Event → (heard : Nat) → Except (BuildError × Nat) Builder
  | b, [], _ => .ok b
  | b, e :: es, heard =>
    match b.hear e with
    | .ok b => run b es (heard + 1)
    | .error err => .error (err, heard)

/-- The root, if the stream has told one tree that covers the text. -/
def complete? (b : Builder) : Except BuildError Stem :=
  if !b.opened.isEmpty then .error .unfinished
  else
    match b.root with
    | none => .error .noRoot
    | some root => if b.rest.isEmpty then .ok root else .error .uncovered

/-- Gives the work up, which is only possible between trees. -/
def abandon (b : Builder) : Except BuildError Unit :=
  if b.opened.isEmpty then .ok () else .error .abandoned

end Builder

end ActionScript
