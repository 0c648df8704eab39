import ActionScript.Diagnostic.Window
import ActionScript.Text.Basic
import ActionScript.Text.Class
import ActionScript.Text.Width

/-!
# Excerpts

The lines of a text that a span touches, and how much room they take up on a page.

* `Excerpt.isSome_of?`: every stretch of a text has an excerpt.
-/

set_option autoImplicit false

namespace ActionScript

namespace Text

/-- The lines of a text, without the line feed that ends them and a carriage return before it. -/
def lines : Text → List Text
  | [] => []
  | '\n' :: cs => [] :: lines cs
  | '\r' :: '\n' :: cs => [] :: lines cs
  | c :: cs =>
    match lines cs with
    | [] => [[c]]
    | l :: ls => (c :: l) :: ls

/-- The part of a text behind its last line feed. -/
def lastLine (t : Text) : Text := (t.reverse.takeWhile (· != '\n')).reverse

/-- A text as it is shown: tabs as four blanks, and without the zero width joiner and the marks that
change the direction of writing. -/
def shown (t : Text) : Text :=
  t.flatMap fun c =>
    if c == '\t' then List.replicate 4 ' '
    else if within [0x200d, 0x200e, 0x202a, 0x202f, 0x2066, 0x206a] c.toNat then []
    else [c]

/-- Is there nothing to see in a text? -/
def isBare (t : Text) : Bool := t.all fun c => within whiteSpaceBoundaries c.toNat

/-- The width of the white space that a line starts with, as it is shown. -/
def indent (t : Text) : Nat :=
  (shown (t.takeWhile fun c => within whiteSpaceBoundaries c.toNat)).length

end Text

/-- The lines that a span touches.  On an empty line there is nothing to touch. -/
structure Excerpt where
  /-- The number of the first line. -/
  number : Nat
  lines : List Text
  /-- What stands in the first line before the span. -/
  before : Text
  /-- What the span holds of the first line. -/
  marked : Text

namespace Excerpt

/-- The excerpt for a span.  There is none for a span that does not lie in the text. -/
def of? (text : Text) (span : Span) : Option Excerpt :=
  if span.start ≤ span.stop then
    (text.splitAt? span.start).bind fun (before, behind) =>
      (behind.splitAt? (span.stop - span.start)).map fun (marked, after) =>
        let margin := before.lastLine
        let lines := Text.lines (margin ++ marked ++ after.takeWhile (· != '\n'))
        let first := (lines.headD []).length
        { number := before.count '\n' + 1
          lines
          before := margin.take first
          marked := marked.take (first - margin.length) }
  else none

/-- Every stretch of a text has an excerpt. -/
theorem isSome_of? {text : Text} {span : Span} (h : span.Within text) :
    (of? text span).isSome = true := by
  obtain ⟨hle, ⟨before, behind, rfl, hstart⟩, hstop⟩ := h
  have hmarked : behind.IsBoundary (span.stop - span.start) := by
    apply Text.IsBoundary.of_append (a := before)
    rwa [hstart, Nat.add_sub_cancel' hle]
  rw [of?, if_pos hle, ← hstart, Text.splitAt?_append, Option.bind_some, Option.isSome_map, hstart]
  exact Text.isSome_splitAt?_iff.2 hmarked

/-- The column at which the span starts.  Control characters count nothing, and a tab is one of
them, however it is shown. -/
def start (e : Excerpt) : Nat := e.before.columns 0

/-- The column at which the span ends.  At least one column is marked. -/
def stop (e : Excerpt) : Nat := e.start + max 1 (e.marked.columns 0)

/-- What there is to show of an excerpt whose mark has a label of a length. -/
def scene (e : Excerpt) (label : Nat) : Scene where
  indent := ((e.lines.filter (!·.isBare)).map Text.indent).min?
  longest := ((e.lines.map Text.size).max?).getD 0
  start := e.start
  stop := e.stop
  labelStop := e.stop + 1 + label

end Excerpt

end ActionScript
