/-!
# Windows

A page is not as wide as a line can be, and deep indentation is not worth showing.  A window says
which columns of the lines are shown: all of them if they fit once deep indentation is cut, else
those around the mark and, if there is room, its label.
-/

set_option autoImplicit false

namespace ActionScript

/-- Which columns are shown. -/
structure Window where
  /-- The first column that is shown. -/
  left : Nat
  /-- A line that goes on from here is cut. -/
  reach : Nat
  /-- Where a line ends that is cut. -/
  right : Nat := reach

/-- The window of a width that starts at a column. -/
def Window.starting (left width : Nat) : Window := { left, reach := left + width }

/-- Where a line of a length ends in the window. -/
def Window.stop (w : Window) (length : Nat) : Nat :=
  if length ≤ w.reach then length else min length w.right

/-- What there is to show, in columns. -/
structure Scene where
  /-- The least indentation of the lines.  There is none if all of them are blank. -/
  indent : Option Nat
  /-- The length of the longest line, with a tab as one character. -/
  longest : Nat
  /-- Where the mark starts. -/
  start : Nat
  /-- Where the mark ends. -/
  stop : Nat
  /-- Where the label of the mark ends. -/
  labelStop : Nat

namespace Scene

/-- The columns kept free on either side for the sign that something was cut. -/
def room : Nat := 6

/-- Where lines with an indentation are cut: deep indentation is cut down to sixteen columns. -/
def edge (indent : Nat) : Nat := if 20 < indent then indent - 16 else 0

/-- The window for lines with an indentation. -/
def windowWithin (s : Scene) (indent width : Nat) : Window :=
  let start := s.start - room
  let stop := s.stop + room
  let labelStop := s.labelStop + room
  if s.longest ≤ edge indent + width then
    { left := edge indent, reach := edge indent + width, right := max (edge indent) s.longest }
  else if indent ≤ labelStop ∧ labelStop ≤ indent + width then .starting indent width
  else if labelStop ≤ start + width then
    .starting (start - (start + width - labelStop) / 2) width
  else if stop ≤ start + width then .starting (start - (start + width - stop) / 5 * 2) width
  else { left := start, reach := max (start + width) s.stop, right := stop }

/-- The window that shows a scene on a page.  Of lines that are blank nothing is shown: it starts
behind the longest of them, with every tab shown as four blanks. -/
def window (s : Scene) (width : Nat) : Window :=
  match s.indent with
  | none => .starting (4 * s.longest + 1) width
  | some indent => s.windowWithin (indent - room) width

end Scene

end ActionScript
