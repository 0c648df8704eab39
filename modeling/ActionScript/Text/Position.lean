import ActionScript.Text.Basic

/-!
# Positions

Where an offset lies for a reader: line and column, both counted from one.  A line index finds them,
and counts from zero.

* `LineIndex`: what finds lines and columns, at every boundary of a text.
* `LineIndex.byLineFeeds`: only a line feed ends a line, and columns count bytes.
-/

set_option autoImplicit false

namespace ActionScript

/-- A line and a column, both counted from one. -/
structure Position where
  line : Nat
  column : Nat
  deriving DecidableEq, Repr

/-- Finds lines and columns in a text, both counted from zero. -/
structure LineIndex where
  /-- Line and column of an offset. -/
  place? : (text : Text) → (offset : Nat) → Option (Nat × Nat)
  /-- It may fail past the end and inside a character, and only there. -/
  isSome_place? : ∀ {text : Text} {offset : Nat}, text.IsBoundary offset →
    (place? text offset).isSome = true

namespace LineIndex

/-- Line and column behind a text that starts at a line and a column. -/
def advance : Nat × Nat → Text → Nat × Nat
  | place, [] => place
  | (line, column), c :: cs =>
    if c == '\n' then advance (line + 1, 0) cs else advance (line, column + c.utf8Size) cs

/-- Counts the line feeds of a text, and the bytes behind them. -/
def byLineFeeds : LineIndex where
  place? text offset := (text.splitAt? offset).map fun (before, _) => advance (0, 0) before
  isSome_place? := by
    intro text offset h
    rw [Option.isSome_map]
    exact Text.isSome_splitAt?_iff.2 h

/-- The position of an offset. -/
def position? (index : LineIndex) (text : Text) (offset : Nat) : Option Position :=
  (index.place? text offset).map fun (line, column) => ⟨line + 1, column + 1⟩

/-- There is a position at each boundary. -/
theorem isSome_position? {index : LineIndex} {text : Text} {offset : Nat}
    (h : text.IsBoundary offset) : (index.position? text offset).isSome = true := by
  rw [position?, Option.isSome_map]
  exact index.isSome_place? h

end LineIndex

end ActionScript
