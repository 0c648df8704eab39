import ActionScript.Text.Basic

/-!
# Rows

A row of output by columns: each cell holds a character and the ink it is written in.  A row is
filled by writing at a column, and later writing covers earlier writing.
-/

set_option autoImplicit false

namespace ActionScript

/-- What a character is written in. -/
inductive Ink where
  | plain
  | fault
  | gutter
  | strong
  deriving DecidableEq, Repr

/-- What stands around a part of the output that is set off. -/
structure Paint where
  before : String := ""
  after : String := ""

/-- Sets a part off. -/
def Paint.apply (p : Paint) (s : String) : String := p.before ++ s ++ p.after

/-- How the inks are set off. -/
structure Style where
  fault : Paint := {}
  gutter : Paint := {}
  strong : Paint := {}

namespace Style

/-- Nothing is set off. -/
def plain : Style := {}

/-- Faults in bright red, the gutter in bright blue and the message in bold. -/
def colored : Style where
  fault := ⟨"\x1b[1m\x1b[91m", "\x1b[0m"⟩
  gutter := ⟨"\x1b[1m\x1b[94m", "\x1b[0m"⟩
  strong := ⟨"\x1b[1m", "\x1b[0m"⟩

/-- How an ink is set off. -/
def paint (s : Style) : Ink → Paint
  | .plain => {}
  | .fault => s.fault
  | .gutter => s.gutter
  | .strong => s.strong

end Style

/-- One column of a row. -/
structure Cell where
  char : Char
  ink : Ink
  deriving DecidableEq, Repr

/-- A cell that nothing was written to. -/
def Cell.blank : Cell := ⟨' ', .plain⟩

/-- A row of output, from its first column on. -/
abbrev Row := List Cell

namespace Row

/-- A text in one ink. -/
def ofText (ink : Ink) (t : Text) : Row := t.map (⟨·, ink⟩)

/-- A string in one ink. -/
def ofString (ink : Ink) (s : String) : Row := ofText ink s.toList

/-- Writes cells at a column.  A gap before it is filled with blanks. -/
def put (row : Row) (column : Nat) (cells : Row) : Row :=
  if cells.isEmpty then row
  else row.take column ++ List.replicate (column - row.length) .blank ++ cells ++
    row.drop (column + cells.length)

/-- A row as text.  Neighbours of one ink are set off together. -/
def write (style : Style) (row : Row) : String :=
  String.join ((row.splitBy (·.ink == ·.ink)).map fun
    | [] => ""
    | c :: cs => (style.paint c.ink).apply (String.ofList (c.char :: cs.map Cell.char)))

end Row

end ActionScript
