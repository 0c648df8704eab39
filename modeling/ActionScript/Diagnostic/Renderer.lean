import ActionScript.Diagnostic.Basic

/-!
# Renderers

A diagnostic is shown to a person by a renderer.  The renderer is given a snippet and lays it out;
how it does so is its own affair, but it shows every snippet whose mark lies in its source.
-/

set_option autoImplicit false

namespace ActionScript

/-- An error over a source.  A stretch of the source is marked as one, too, and lines far from that
are left out. -/
structure Snippet where
  /-- What is wrong. -/
  title : String
  /-- Where the source comes from. -/
  origin : String
  source : Text
  /-- The stretch that is marked. -/
  span : Span
  /-- What is said at the mark. -/
  label : String

/-- Lays out snippets. -/
structure Renderer where
  render? : Snippet → Option String
  /-- It may fail if the mark does not lie in the source, and only then. -/
  isSome_render? : ∀ {s : Snippet}, s.span.Within s.source → (render? s).isSome = true

/-- What is shown of a diagnostic. -/
structure Notice where
  category : Category
  message : String
  span : Span

/-- The notice of a diagnostic. -/
def Diagnostic.notice (d : Diagnostic) : Notice := ⟨d.cause.category, d.cause.message, d.span⟩

namespace Notice

/-- A notice over the text of a file. -/
def snippet (n : Notice) (path : String) (text : Text) : Snippet :=
  ⟨n.message, path, text, n.span, n.category.label⟩

/-- Shows a notice. -/
def render? (n : Notice) (renderer : Renderer) (path : String) (text : Text) : Option String :=
  renderer.render? (n.snippet path text)

end Notice

end ActionScript
