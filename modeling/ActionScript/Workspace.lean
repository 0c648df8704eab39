import ActionScript.Parse
import ActionScript.Text.Position

/-!
# Workspaces

A workspace holds source files by number.  The text and the path of a file can be replaced; what is
derived from a file always belongs to its present text.
-/

set_option autoImplicit false

namespace ActionScript

/-- A source file. -/
structure SourceFile where
  path : String
  text : Text

namespace SourceFile

/-- Line and column of an offset in the file. -/
def position? (f : SourceFile) (offset : Nat) (index : LineIndex := .byLineFeeds) :
    Option Position :=
  index.position? f.text offset

/-- The diagnostics of the file in the order in which they are found. -/
def diagnostics [Alphabet] (f : SourceFile) : List Diagnostic :=
  match parse f.text with
  | .ok p => p.diagnostics
  | .error _ => []

end SourceFile

/-- Source files, numbered from zero in the order in which they were added. -/
structure Workspace where
  files : List SourceFile := []

namespace Workspace

/-- Adds a file and gives its number. -/
def add (w : Workspace) (f : SourceFile) : Nat × Workspace :=
  (w.files.length, ⟨w.files ++ [f]⟩)

/-- The file with a number. -/
def file? (w : Workspace) (i : Nat) : Option SourceFile := w.files[i]?

/-- Replaces the text of a file. -/
def setText (w : Workspace) (i : Nat) (text : Text) : Workspace :=
  ⟨w.files.modify i fun f => { f with text }⟩

/-- Replaces the path of a file. -/
def setPath (w : Workspace) (i : Nat) (path : String) : Workspace :=
  ⟨w.files.modify i fun f => { f with path }⟩

end Workspace

end ActionScript
