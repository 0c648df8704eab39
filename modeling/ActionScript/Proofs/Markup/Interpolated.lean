import ActionScript.Proofs.Comments
import ActionScript.Proofs.Lexing.Trivia
import ActionScript.Proofs.Markup.RoundTrip

/-!
# Interpolations are read again

An expression between the tags of an element may be followed by trivia in front of the closing
brace.  Those on its own line go to its last token, and the others to the brace, which is read as in
a tag.  If none of these is a comment, the brace is found, and nothing is wrong with the text.

* `Trivia.Clears`: the trivia leave no comment for the brace.
* `Trivia.Clears.ends`, `Trivia.Clears.reads`: they end the expression, and the brace is read behind
  them.
* `Xml.goes_interpolation`: **an interpolation is read again.**
* `Xml.parseWithin_interpolated`: **so is the element around it**, up to the tree.
-/

set_option autoImplicit false

namespace ActionScript

open ActionScript.Parser ActionScript.Grammar

/-! ## Trivia in front of a brace -/

namespace Trivia

variable {cs rest behind behind' : Text} {t : Trivia} {ts gap : List Trivia}

/-- Where a piece ends is told by the next character. -/
theorem Canonical.congr_head (h : t.Canonical behind) (hne : behind ≠ [])
    (hhead : behind.head? = behind'.head?) : t.Canonical behind' := by
  cases h with
  | blanks hbody hblank hend => exact .blanks hbody hblank (hhead ▸ hend)
  | newline hbody hfeed => exact .newline hbody (hhead ▸ hfeed)
  | line hbody hend => exact .line hbody (hhead ▸ hend)
  | block hbody => exact .block hbody
  | openBlock => exact absurd rfl hne

/-- Every piece begins with a character that ends a printed token. -/
theorem Canonical.parted (h : t.Canonical behind) : Text.Parted (t.text ++ rest) := by
  cases h with
  | blanks hne hblank =>
    obtain ⟨c, cs, rfl⟩ := List.exists_cons_of_ne_nil hne
    have hspace := mem_spaceCodes_of_isBlank (hblank c List.mem_cons_self)
    exact ⟨c, _, rfl, List.mem_append_left _ hspace⟩
  | newline hbody =>
    simp only [lineBreaks, List.mem_cons, List.not_mem_nil, or_false] at hbody
    rcases hbody with rfl | rfl | rfl | rfl | rfl <;> exact ⟨_, _, rfl, by decide⟩
  | line | block | openBlock => exact ⟨'/', _, rfl, by decide⟩

/-- **A row of pieces that end where they have to is gathered**, in front of any text that begins
with the same character. -/
theorem AllCanonical.gathers (h : AllCanonical ts behind) (hne : behind ≠ [])
    (hhead : behind.head? = rest.head?) (hend : leading? true rest = none) :
    Gathers (leading? true) (flatten ts ++ rest) ts rest := by
  have hrest : rest ≠ [] := by
    rintro rfl
    exact hne (List.head?_eq_none_iff.1 hhead)
  induction h with
  | nil => exact .nil hend
  | @cons t ts behind ht _ ih =>
    have hnext : (flatten ts ++ behind).head? = (flatten ts ++ rest).head? := by
      rw [List.head?_append, List.head?_append, hhead]
    obtain ⟨closed, hcut⟩ := leading?_of_canonical (ht.congr_head (by simp [hne]) hnext)
    have hclosed : closed = true := by
      cases closed with
      | true => rfl
      | false => exact absurd ((leading?_ends hcut).rest_eq rfl) (by simp [hrest])
    rw [hclosed] at hcut
    rw [flatten, List.flatMap_cons, List.append_assoc]
    exact .cons hcut (ih hne hhead)

theorem Gathers.append (h : Gathers (leading? true) cs ts rest) : flatten ts ++ rest = cs := by
  induction h with
  | nil => rfl
  | cons hcut _ ih =>
    rw [flatten, List.flatMap_cons, List.append_assoc, leading?_append hcut]
    exact congrArg _ ih

/-- What pieces are gathered from ends a printed token, if what stands behind them does. -/
theorem Gathers.parted (h : Gathers (leading? true) cs ts rest) (hrest : rest.Parted) :
    cs.Parted := by
  cases h with
  | nil => exact hrest
  | cons hcut _ =>
    rw [leading?_append hcut]
    exact (leading?_canonical hcut).parted

/-- Behind an operand the code goes on behind the pieces. -/
theorem Gathers.ahead [Alphabet] (h : Gathers (leading? true) cs ts rest) :
    Text.ahead cs = (Code.lexeme .operator rest).kind := by
  have hleading : Mode.operator.leading cs = ⟨ts, rest, none⟩ :=
    h.run_eq (shortens_leading? true) 0 (Nat.le_refl _)
  change (Code.lexeme .operator (Mode.operator.leading cs).rest).kind = _
  rw [hleading]

/-- The trivia up to the end of the line. -/
def onLine (gap : List Trivia) : List Trivia := gap.takeWhile fun t => !t.breaksLine

/-- The trivia from the end of the line on. -/
def belowLine (gap : List Trivia) : List Trivia := gap.dropWhile fun t => !t.breaksLine

/-- Trivia in front of a closing brace: every piece ends where it has to, and from the end of the
line on none is a comment. -/
structure Clears (gap : List Trivia) : Prop where
  canonical : AllCanonical gap ['}']
  plain : ∀ t ∈ belowLine gap, t.isComment = false

/-- Nothing is lost where the line ends. -/
theorem flatten_onLine_append (gap : List Trivia) (cs : Text) :
    flatten (onLine gap) ++ (flatten (belowLine gap) ++ cs) = flatten gap ++ cs := by
  have hsplit : onLine gap ++ belowLine gap = gap := List.takeWhile_append_dropWhile
  rw [← List.append_assoc, flatten, flatten, ← List.flatMap_append, hsplit, flatten]

namespace Clears

variable (h : Clears gap) (more : Text)
include h

theorem gathers : Gathers (leading? true) (flatten gap ++ '}' :: more) gap ('}' :: more) :=
  h.canonical.gathers (List.cons_ne_nil _ _) rfl (solid_cons (by decide) (by decide) (by decide) _)

/-- The trivia are split at the end of the line. -/
theorem splits :
    Gathers trailing? (flatten gap ++ '}' :: more) (onLine gap)
        (flatten (belowLine gap) ++ '}' :: more) ∧
      Gathers (leading? true) (flatten (belowLine gap) ++ '}' :: more) (belowLine gap)
        ('}' :: more) := by
  obtain ⟨behind, honline, hbelow⟩ := (h.gathers more).trailing
  rw [← hbelow.append] at honline hbelow
  exact ⟨honline, hbelow⟩

/-- **They end the expression**: those on its line belong to it. -/
theorem ends : Ends (onLine gap) (flatten (belowLine gap) ++ '}' :: more) := by
  refine ⟨?_, ?_⟩
  · rw [flatten_onLine_append]
    exact (h.gathers more).parted ⟨'}', more, rfl, by decide⟩
  · rw [flatten_onLine_append]
    exact (h.splits more).1.run_eq shortens_trailing? 0 (Nat.le_refl _)

/-- A closing brace comes next. -/
theorem ahead [Alphabet] : Text.ahead (flatten (belowLine gap) ++ '}' :: more) = .rCurly := by
  rw [(h.splits more).2.ahead]
  rfl

/-- **The brace is read behind the others**, as in a tag. -/
theorem reads [Alphabet] :
    Mode.xmlTag.ReadsBehind (belowLine gap) (flatten (belowLine gap) ++ '}' :: more)
    .rCurly ['}'] [] more := by
  refine Mode.reads_tag_behind _ ?_ rfl
  rcases (h.splits more).2.markup with ⟨-, hmarkup⟩ | ⟨⟨t, ht, hcomment⟩, -⟩
  · exact hmarkup.run_eq (shortens_leading? false) 0 (Nat.le_refl _)
  · rw [h.plain t ht] at hcomment
    cases hcomment

end Clears

end Trivia

/-! ## Interpolations -/

namespace Xml

open Phrase Setting Shape Trivia

section

variable [Alphabet]

/-- The shape of an interpolation between tags: the expression with the trivia on its line, and the
brace behind the others. -/
def interpolated (e : Expr) (gap : List Trivia) : Shape :=
  .node .xmlExpr (some .content)
    [.sign .lCurly none [], (e.shape (onLine gap)).withField .expression,
     .token .rCurly none (belowLine gap) ['}'] []]

/-- The shape of an element around it. -/
def surrounding (t : XmlTag) (e : Expr) (gap : List Trivia) : Shape :=
  .node .xmlElement none [startTag t .gt, interpolated e gap, endTag t]

/-- The text of an element around a text in braces. -/
def printAround (t : XmlTag) (body : Text) : Text :=
  '<' :: printTag t ++ '>' :: '{' :: body ++ '}' :: '<' :: '/' :: t.nameText ++ ['>']

theorem source_interpolated (e : Expr) (gap : List Trivia) (more : Text) :
    (interpolated e gap).source ++ more =
      '{' :: ((e.shape (onLine gap)).source ++ (flatten (belowLine gap) ++ '}' :: more)) := by
  have hopen : Kind.lCurly.text = ['{'] := rfl
  simp [interpolated, source, sourceAll, source_withField, source_sign, hopen]

theorem source_surrounding (t : XmlTag) (e : Expr) (gap : List Trivia) (more : Text) :
    (surrounding t e gap).source ++ more = '<' :: printTag t ++ (Kind.gt.text ++
      ((interpolated e gap).source ++ '<' :: '/' :: (t.nameText ++ '>' :: more))) := by
  simp [surrounding, source, sourceAll, source_startTag, source_endTag]

/-- Inside of the braces stand the text of the expression and the trivia. -/
theorem assigned_surrounding (x : Name) (t : XmlTag) (e : Expr) (gap : List Trivia) :
    assigned x (surrounding t e gap) =
      x.text ++ ' ' :: '=' :: ' ' :: printAround t (e.print ++ flatten gap) ++ [';'] := by
  have hclose : Kind.gt.text = ['>'] := rfl
  have hsource := source_surrounding t e gap []
  rw [source_interpolated, e.source_shape_eq_append, List.append_assoc,
    flatten_onLine_append] at hsource
  rw [assigned, ← List.append_nil (surrounding t e gap).source, hsource, printAround]
  simp [hclose]

theorem opensTag_surrounding (t : XmlTag) (e : Expr) (gap : List Trivia) :
    (surrounding t e gap).OpensTag := by
  intro more
  have hin : Text.InTag (printTag t ++ (Kind.gt.text ++
      ((interpolated e gap).source ++ '<' :: '/' :: (t.nameText ++ '>' :: more)))) := by
    refine inTag_printTag t fun _ => ?_
    rw [source_interpolated]
    exact ⟨'>', '{', _, rfl, by decide⟩
  rw [source_surrounding, List.cons_append]
  cases t with
  | named name attributes => exact ⟨name.first, _, rfl, by simp [opensTag, name.isStart], hin⟩
  | ofList => exact ⟨'>', _, rfl, by simp [opensTag], hin⟩

variable {limits : Limits} (hl : limits.Endless) (e : Expr) {gap : List Trivia} (hgap : Clears gap)
include hl hgap

/-- **An interpolation is read again**, as a piece of content. -/
theorem goes_interpolation {depth : Nat} (hdepth : 4 * e.height + 2 ≤ depth) (more : Text)
    (mode : Mode) (made : List Shape) :
    (atDepth limits depth).Goes contentStep ⟨(interpolated e gap).source ++ more, mode, made⟩ true
      ⟨more, .operator, interpolated e gap :: made⟩ := by
  rw [source_interpolated]
  have hopen : Mode.xmlContent.Reads
      ('{' :: ((e.shape (onLine gap)).source ++ (flatten (belowLine gap) ++ '}' :: more)))
      .lCurly ['{'] [] _ := Mode.reads_content rfl
  have hexpression := (Expr.legible hl e).goes_closed hdepth (hgap.ends more)
    (by rw [hgap.ahead]; decide) .operator [.sign .lCurly none []]
  refine (goes_look_reads _ _ _ _ hopen).bind ?_
  refine Goes.bind ((goes_nodeOf hl ?_).bind (goes_label .content _ _ _ _)) (goes_pure _ _)
  refine (goes_take hl hopen none).bind ((goes_callIn hexpression).bind ?_)
  exact (goes_expectIn hl (hgap.reads more)).bind (goes_pure _ _)

/-- **So is the element around it.** -/
theorem goes_surrounding (t : XmlTag) {depth : Nat} (hdepth : 4 * e.height + 2 ≤ depth)
    (more : Text) (made : List Shape) : (atDepth limits depth).Goes elementRule
      ⟨(surrounding t e gap).source ++ more, .operator, made⟩ ()
      ⟨more, .operator, surrounding t e gap :: made⟩ := by
  have hread : Mode.operator.Reads ((surrounding t e gap).source ++ more) .lt Kind.lt.text []
      ((surrounding t e gap).source ++ more).tail := by
    obtain ⟨c, cs, hsource, hc, -⟩ := opensTag_surrounding t e gap more
    rw [hsource]
    exact reads_tag_code .operator (by decide) hc cs
  have hstop : Mode.xmlContent.Reads ('<' :: '/' :: (t.nameText ++ '>' :: more)) .ltSlash
      Kind.ltSlash.text [] (t.nameText ++ '>' :: more) := Mode.reads_content rfl
  rw [source_surrounding] at hread ⊢
  have htag :=
    goes_startTag (E := atDepth limits depth) hl t .gt (by decide) (fun _ => rfl) hread []
  have hcontent := goes_loop (.more
    (goes_interpolation hl e hgap hdepth ('<' :: '/' :: (t.nameText ++ '>' :: more)) .operator
      [startTag t .gt])
    (.last ((goes_look_reads _ _ _ _ hstop).bind (goes_pure _ _))))
  have hend := goes_endTag (E := atDepth limits depth) hl t more
    [interpolated e gap, startTag t .gt] .xmlContent
  rw [← content_eq] at hcontent
  exact goes_nodeOf hl (htag.bind (.of_pos (by decide) (hcontent.bind hend)))

/-- **Parsing an interpolation between tags** reports nothing if the trivia behind the expression
leave no comment for the brace.  The tree holds the expression and the brace that closes the
interpolation, if nesting is not limited below the height of the expression. -/
theorem parseWithin_interpolated (x : Name) (t : XmlTag)
    (hdepth : 4 * e.height + 7 ≤ limits.maxDepth) : ∃ text : Text,
      text = x.text ++ ' ' :: '=' :: ' ' :: printAround t (e.print ++ flatten gap) ++ [';'] ∧
      parseWithin limits text = .ok ⟨Tree.ofStem text (program x (surrounding t e gap)), []⟩ := by
  have hlegible : Legible limits (4 * e.height + 3) .primary true (surrounding t e gap).phrase :=
    legible_of_element (opensTag_surrounding t e gap)
      (fun depth hdepth more made => goes_surrounding hl e hgap t hdepth more made) true
  exact ⟨_, assigned_surrounding x t e gap, parseWithin_assigned hl hlegible x hdepth⟩

end

/-- A comment on the line of the expression, and the brace on the next one. -/
theorem parseWithin_interpolated_comment :
    ∃ tree, parseWithin {} "x = <a>\x7bb //c\n\x7d</a>;".toList = .ok ⟨tree, []⟩ := by
  let x : Name := ⟨['x'], ⟨'x', [], rfl, by decide +kernel, rfl⟩, by decide +kernel⟩
  let b : Name := ⟨['b'], ⟨'b', [], rfl, by decide +kernel, rfl⟩, by decide +kernel⟩
  let a : TagName := ⟨'a', [], by decide +kernel, rfl⟩
  let gap : List Trivia :=
    [⟨.whitespace, [' ']⟩, ⟨.lineComment, ['/', '/', 'c']⟩, ⟨.newline, ['\n']⟩]
  have hgap : Clears gap :=
    { canonical :=
        .cons (.blanks (List.cons_ne_nil _ _) (List.forall_mem_singleton.2 rfl)
          (by rintro _ ⟨⟩; rfl)) <|
        .cons (.line (List.forall_mem_singleton.2 rfl) (by rintro _ ⟨⟩; rfl)) <|
        .cons (.newline (by decide) (by decide)) .nil
      plain := by decide }
  obtain ⟨text, htext, hp⟩ := parseWithin_interpolated (Limits.endless_maxDepth 256)
    (.reference (.name b)) hgap x (.named a []) (by decide)
  exact ⟨_, htext ▸ hp⟩

end Xml

end ActionScript
