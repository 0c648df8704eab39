import ActionScript.Diagnostic.Excerpt
import ActionScript.Diagnostic.Renderer
import ActionScript.Diagnostic.Row

/-!
# Snippets

A snippet as shown on a page: its title, its position, the line it lies on and carets below the text
at fault.  The layout is for a span inside one line; of a longer span the part on its first line is
marked.

* `Renderer.plain`, `Renderer.styled`: the renderers that lay out snippets this way.
-/

set_option autoImplicit false

namespace ActionScript

namespace Snippet

/-- The columns of a page. -/
def pageWidth : Nat := 140

/-- What stands for the part of a line that is cut. -/
def ellipsis : Row := .ofString .gutter "..."

/-- The first row says what is wrong. -/
def titleRow (message : String) : Row :=
  if message.isEmpty then .ofString .fault "error"
  else .ofString .fault "error" ++ .ofString .plain ": " ++ .ofString .strong message

/-- The second row says where. -/
def location (gutter : Nat) (path : String) (line column : Nat) : Row :=
  ((Row.put [] gutter (.ofString .gutter "-->")).put (gutter + 4) (.ofString .plain path)) ++
    .ofString .plain (":" ++ toString line ++ ":" ++ toString column)

/-- A row with nothing but the bar that divides the gutter from the text. -/
def bar (gutter : Nat) : Row := Row.put [] (gutter + 1) (.ofString .gutter "|")

/-- A line of the text, with its number, as far as the window shows it. -/
def sourceRow (window : Window) (number : Nat) (line : Text) : Row :=
  let gutter : Row := .ofString .gutter (toString number ++ " |")
  let margin := gutter.length + 1
  let code := line.shown
  let seen := Text.takeColumns (window.stop code.size - window.left) (code.drop window.left)
  let row := gutter.put margin (.ofText .plain seen)
  let row := if 0 < window.left then row.put margin ellipsis else row
  if window.reach < code.size then row.put (margin + seen.columns 1 - 3) ellipsis else row

/-- The carets below the columns from `start` to `stop`, and their label, for a line of which the
first `cut` columns are not shown.  Carets for columns that are cut go into the gutter. -/
def carets (gutter cut start stop : Nat) (label : String) : Row :=
  let margin := gutter + 3
  let first := margin + start - cut
  let count := max 1 (margin + stop - cut - first)
  ((bar gutter).put (margin + (stop + 1 - cut)) (.ofString .fault label)).put first
    (.ofText .fault (List.replicate count '^'))

/-- All rows of a snippet.  On an empty line there is nothing to show, not even its number. -/
def rows (s : Snippet) (e : Excerpt) : List Row :=
  match e.lines with
  | [] => [titleRow s.title, location 0 s.origin 1 1, bar 0, bar 0]
  | line :: _ =>
    let gutter := (toString e.number).length
    let width := pageWidth - (3 + (toString (e.number + e.lines.length)).length)
    let window := (e.scene s.label.length).window width
    [titleRow s.title,
     location gutter s.origin e.number (e.before.length + 1),
     bar gutter,
     sourceRow window e.number line,
     carets gutter (Text.columns 1 (line.shown.take window.left)) e.start e.stop s.label,
     bar gutter]

/-- The page of a snippet.  There is none for a span that does not lie in the source. -/
def page? (style : Style) (s : Snippet) : Option String :=
  (Excerpt.of? s.source s.span).map fun e => "\n".intercalate ((s.rows e).map (Row.write style))

end Snippet

namespace Renderer

/-- The renderer that lays out pages in a style. -/
def inStyle (style : Style) : Renderer where
  render? := Snippet.page? style
  isSome_render? := by
    intro s h
    rw [Snippet.page?, Option.isSome_map, Excerpt.isSome_of? h]

/-- Pages without colors. -/
def plain : Renderer := inStyle .plain

/-- Pages with colors. -/
def styled : Renderer := inStyle .colored

end Renderer

end ActionScript
