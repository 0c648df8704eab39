import ActionScript.Command
import ActionScript.Proofs.Ranges

/-!
# What a run reports

Each diagnostic of a parse lies in the text, so a renderer that shows whatever lies in its source
shows all of them.  A run of the command therefore fails exactly if it has something to say about
the text or the file.

* `isSome_render_of_parseWithin`: every diagnostic of a parse is shown.
* `Command.exit_eq_zero_iff`: **a run that fails says why**, and one that succeeds complains of
  nothing.
-/

set_option autoImplicit false

namespace ActionScript

/-- Whatever lays out snippets, every diagnostic of a parse is shown. -/
theorem isSome_render_of_parseWithin [Alphabet] {limits : Limits} {text : Text} {p : Parse}
    {d : Diagnostic}
    (h : parseWithin limits text = .ok p) (hd : d ∈ p.diagnostics) (renderer : Renderer)
    (path : String) : (d.notice.render? renderer path text).isSome = true :=
  renderer.isSome_render? (span_within_of_parseWithin h hd)

namespace SourceFile

theorem isSome_render_of_mem_diagnostics [Alphabet] {f : SourceFile} {d : Diagnostic}
    (hd : d ∈ f.diagnostics)
    (renderer : Renderer) (path : String) :
    (d.notice.render? renderer path f.text).isSome = true := by
  unfold diagnostics at hd
  split at hd
  · rename_i p hp
    exact isSome_render_of_parseWithin hp hd renderer path
  · cases hd

end SourceFile

/-- The exit code is zero exactly if nothing goes to the error output. -/
def Outcome.IsHonest (o : Outcome) : Prop := o.exit = 0 ↔ o.stderr = ""

namespace Command

variable {renderer : Renderer} {path stdout : String} {text : Text} {diagnostics : List Diagnostic}

theorem isHonest_failure (what path cause : String) :
    Outcome.IsHonest (failure what path cause) := by
  simp [Outcome.IsHonest, failure]

/-- A report is printed unless there is nothing to report. -/
theorem isHonest_report
    (h : ∀ d ∈ diagnostics, (d.notice.render? renderer path text).isSome = true) :
    Outcome.IsHonest (report renderer path text stdout diagnostics) := by
  cases diagnostics with
  | nil => simp [Outcome.IsHonest, report]
  | cons d ds =>
    obtain ⟨shown, hshown⟩ := Option.isSome_iff_exists.1 (h d List.mem_cons_self)
    simp [Outcome.IsHonest, report, hshown, String.join_cons]

theorem isHonest_runOn [Alphabet] (renderers : Renderers) (text : Text) (c : Command) :
    (c.runOn renderers text).IsHonest := by
  cases c with
  | parse path debug maxNodes timeoutMs =>
    simp only [runOn]
    split
    · exact isHonest_failure _ _ _
    · rename_i p hp
      exact isHonest_report fun d hd => isSome_render_of_parseWithin hp hd _ path
  | check path plain =>
    exact isHonest_report fun d hd =>
      SourceFile.isSome_render_of_mem_diagnostics (f := ⟨path, text⟩) hd _ path
  | tokens path =>
    simp only [runOn]
    split
    · exact isHonest_failure _ _ _
    · simp [Outcome.IsHonest]

/-- **A run that fails says why**, and one that succeeds complains of nothing. -/
theorem exit_eq_zero_iff [Alphabet] (c : Command) (file : Except ReadError Text)
    (renderers : Renderers) :
    (c.run file renderers).exit = 0 ↔ (c.run file renderers).stderr = "" := by
  cases file with
  | error e => exact isHonest_failure _ _ _
  | ok text => exact isHonest_runOn renderers text c

end Command

end ActionScript
