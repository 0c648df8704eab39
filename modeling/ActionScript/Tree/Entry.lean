import ActionScript.Tree.Event

/-!
# The record of a parse

A parse keeps a record of its nodes and tokens, a list of entries that only grows at its end.  When
a node starts, its kind is not known yet, nor whether another node will go around it.  So its start
is a placeholder until the node is completed; and a node that goes around a completed one is started
behind that, and found from there by a link forward.

* `Entry.amend` changes the start at a position.
* `Entry.settle` follows the links and tells the record as a stream of events.

Both fail at a position or a link that leads to no start.
-/

set_option autoImplicit false

namespace ActionScript

/-- What goes wrong where entries are misused. -/
inductive Fault where
  /-- A position or a link leads behind the last entry. -/
  | outOfRange
  /-- A position or a link leads to something else than a start. -/
  | notStart
  /-- There is no node that was completed just before. -/
  | nothingCompleted
  /-- A node was started and never completed. -/
  | dropped
  /-- A repetition goes on for longer than the text has characters. -/
  | endless
  /-- The events do not make up a tree over the text. -/
  | refused (error : BuildError)
  deriving DecidableEq, Repr

/-- The start of a node. -/
structure Start where
  kind : Kind
  /-- How many entries further on the node starts that goes around this one. -/
  forward : Option Nat
  field : Option Field
  deriving DecidableEq, Repr

namespace Start

/-- The start of a node that is not completed yet. -/
def placeholder : Start := ⟨.tombstone, none, none⟩

def isPlaceholder (s : Start) : Bool := s.kind == .tombstone

/-- A start without its link. -/
def event (s : Start) : Event := .start s.kind s.field

end Start

/-- An entry in the record of a parse. -/
inductive Entry where
  | start (s : Start)
  /-- A token, taken as one of a kind. -/
  | token (token : Token) (kind : Kind) (field : Option Field)
  | finish

namespace Entry

/-- Changes the start at a position. -/
def amend (entries : List Entry) (position : Nat) (change : Start → Start) :
    Except Fault (List Entry) :=
  match entries[position]? with
  | none => .error .outOfRange
  | some (.start s) => .ok (entries.set position (.start (change s)))
  | some _ => .error .notStart

/-- Follows a link, and the links of the starts that it leads to.  Gives these starts, and the
entries with a placeholder in the place of each. -/
def follow : (forward : Option Nat) → List Entry → Except Fault (List Start × List Entry)
  | none, entries => .ok ([], entries)
  -- a link in place leads to the placeholder that its start has become
  | some 0, entries => .ok ([], entries)
  | some (_ + 1), [] => .error .outOfRange
  | some 1, .start s :: entries =>
    (follow s.forward entries).map fun (starts, entries) =>
      (if s.isPlaceholder then starts else s :: starts,
        .start .placeholder :: entries)
  | some 1, _ :: _ => .error .notStart
  | some (distance + 2), entry :: entries =>
    (follow (some (distance + 1)) entries).map fun (starts, entries) => (starts, entry :: entries)

/-- Following links changes starts, and no more. -/
theorem length_follow {entries rest : List Entry} {starts : List Start} {forward : Option Nat}
    (h : follow forward entries = .ok (starts, rest)) : rest.length = entries.length := by
  induction entries generalizing forward starts rest with
  | nil =>
    match forward with
    | none | some 0 => cases h; rfl
    | some (_ + 1) => cases h
  | cons entry entries ih =>
    match forward with
    | none | some 0 => cases h; rfl
    | some 1 =>
      cases entry with
      | start s =>
        rw [follow] at h
        cases hf : follow s.forward entries with
        | error fault => rw [hf] at h; cases h
        | ok found =>
          rw [hf] at h
          cases h
          simp [ih hf]
      | token _ _ _ => cases h
      | finish => cases h
    | some (distance + 2) =>
      rw [follow] at h
      cases hf : follow (some (distance + 1)) entries with
      | error fault => rw [hf] at h; cases h
      | ok found =>
        rw [hf] at h
        cases h
        simp [ih hf]

/-- Tells a record as a stream of events.  Where a node starts, the nodes around it start in front
of it, the outermost one first. -/
def settle : List Entry → Except Fault (List Event)
  | [] => .ok []
  | .finish :: entries => (settle entries).map (Event.finish :: ·)
  | .token t kind field :: entries =>
    (settle entries).map (Event.token kind field (t.leading.map Trivia.measure) t.text.size
      (t.trailing.map Trivia.measure) :: ·)
  | .start s :: entries =>
    if s.isPlaceholder then settle entries
    else
      match _h : follow s.forward entries with
      | .error fault => .error fault
      | .ok (starts, rest) =>
        (settle rest).map (((s :: starts).reverse.map Start.event) ++ ·)
termination_by entries => entries.length
decreasing_by
  · exact Nat.lt_succ_self _
  · exact Nat.lt_succ_self _
  · exact Nat.lt_succ_self _
  · exact Nat.lt_succ_of_le (Nat.le_of_eq (length_follow _h))

end Entry

end ActionScript
