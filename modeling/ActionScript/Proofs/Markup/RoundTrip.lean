import ActionScript.Proofs.Markup.Lookahead
import ActionScript.Proofs.Printing.Assigned

/-!
# Printing and parsing elements

An element that is assigned to a name is parsed without a fault into the tree that it stands for.
It is an operand that takes no trivia behind it.

* `Shape.OpensTag`, `Shape.legible_of_element`: what the rule for elements reads is legible as a
  phrase.
* `Xml.parseWithin_assignedTo`: **the round trip** of an element, up to the tree.
-/

set_option autoImplicit false

namespace ActionScript

open ActionScript.Parser ActionScript.Grammar Trivia

variable {limits : Limits}

/-! ## What begins with a tag -/

variable [Alphabet]

namespace Shape

open Phrase Setting Xml

/-- The text of a shape begins with a tag, and goes on as one. -/
def OpensTag (w : Shape) : Prop :=
  ∀ more, ∃ c cs, w.source ++ more = '<' :: c :: cs ∧ opensTag c = true ∧ Text.InTag (c :: cs)

/-- **What the rule for elements reads is legible**, with one level more. -/
theorem legible_of_element {w : Shape} {n : Nat} (hw : w.OpensTag)
    (h : ∀ depth ≥ n, ∀ more made, (atDepth limits depth).Goes elementRule
      ⟨w.source ++ more, .operator, made⟩ () ⟨more, .operator, w :: made⟩) (free : Bool) :
    Legible limits (n + 1) .primary free w.phrase := by
  refine ⟨Chains.readable (Chains.of_operand ⟨.lt, Kind.lt.text, false⟩ rfl ?_ rfl rfl ?_) free, ?_⟩
  · intro tail more _
    obtain ⟨c, cs, hsource, hc, -⟩ := hw more
    rw [hsource]
    exact (reads_tag_code .exprStart (by decide) hc cs).glimpse
  · intro depth hdepth tail more _ made
    obtain ⟨below, rfl⟩ : ∃ below, depth = below + 1 := ⟨depth - 1, by omega⟩
    have helement := h below (by omega) more made
    obtain ⟨c, cs, hsource, hc, hin⟩ := hw more
    rw [hsource] at helement ⊢
    refine (goes_opensVector (reads_tag_code .operator (by decide) hc cs) hin _ _).bind ?_
    exact .of_neg (by decide) (goes_call .element helement)
  · intro tail more _
    obtain ⟨c, cs, hsource, hc, -⟩ := hw more
    rw [hsource]
    exact Text.opens_of_reads (reads_tag_code .operator (by decide) hc cs)
      (solid_cons (by decide) (by decide) (by decide) _) (by decide)

end Shape

/-! ## Elements -/

namespace Xml

open Phrase Setting Shape

/-- An element that is assigned to a name, as a statement. -/
def assignedTo (x : Name) (e : Xml) : Text := x.text ++ ' ' :: '=' :: ' ' :: e.print ++ [';']

theorem assigned_shape (x : Name) (e : Xml) : assigned x e.shape = assignedTo x e := by
  rw [assigned, source_shape, assignedTo]

theorem opensTag_shape {e : Xml} (hbare : e.opensBarely = false) : e.shape.OpensTag := by
  intro more
  obtain ⟨c, cs, hprint, hc⟩ := e.exists_print more
  have hin := inTag_print hbare more
  rw [hprint] at hin
  rw [source_shape]
  exact ⟨c, cs, hprint, hc, hin⟩

variable (hl : limits.Endless) {e : Xml} (hparted : e.IsParted) (hbare : e.opensBarely = false)
include hl hparted hbare

/-- **An element is legible**, with one level for each level of its height and one for itself. -/
theorem legible (free : Bool) : Legible limits (e.height + 1) .primary free e.shape.phrase := by
  refine legible_of_element (opensTag_shape hbare) (fun depth hdepth more made => ?_) free
  have hread := e.reads_print_code .operator (by decide) more
  rw [source_shape]
  exact goes_element hl e hparted hdepth hread made

/-- **Printing and parsing an element** that is assigned to a name gives the tree that it stands
for, without a diagnostic, if nesting is not limited below its height. -/
theorem parseWithin_assignedTo (x : Name) (hdepth : e.height + 5 ≤ limits.maxDepth) :
    parseWithin limits (assignedTo x e) =
      .ok ⟨Tree.ofStem (assignedTo x e) (program x e.shape), []⟩ := by
  rw [← assigned_shape]
  exact parseWithin_assigned hl (legible hl hparted hbare true) x hdepth

end Xml

end ActionScript
