import ActionScript.Proofs.Markup.Reading
import ActionScript.Proofs.Printing.Spot

/-!
# Elements are read again

The parser reads the first sign of an element in the mode of what stands around it, the rest of a
tag in the mode of tags, and what stands between tags as content.  No token of markup takes anything
along that stands behind it, so an element is read up to its last sign and no further.

* `Setting.goes_startTag`, `Setting.goes_endTag`: the tags are read again.
* `Xml.goes_element`, `Xml.rounds_content`: **so are elements and their content**, with one level of
  nesting for each element inside of another.
-/

set_option autoImplicit false

namespace ActionScript

open ActionScript.Parser ActionScript.Grammar Trivia

namespace Xml

/-! ## What a tag begins and ends with -/

/-- The names, the attributes and the end of a tag make up its text. -/
theorem printTag_append [Alphabet] (t : XmlTag) (more : Text) :
    printTag t ++ more = t.nameText ++ (t.attributes.flatMap printAttribute ++ more) := by
  rw [printTag, List.append_assoc]

/-- In front of attributes, and of the end of a tag, a name ends. -/
theorem endsName_attributes [Alphabet] (as : List XmlAttribute) {more : Text}
    (hmore : Markup.EndsName more) :
    Markup.EndsName (as.flatMap printAttribute ++ more) := by
  have hspace : isTagContinue ' ' = false :=
    (isTagContinue_ascii (by decide)).trans (by decide)
  cases as with
  | nil => exact hmore
  | cons a as => simp [Markup.EndsName, printAttribute, hspace]

/-- A sign that ends a start tag. -/
def tagEndings : List Kind := [.gt, .slashGt]

variable [Alphabet]

theorem reads_tagEnding {ending : Kind} (h : ending ∈ tagEndings) (more : Text) :
    Mode.xmlTag.Reads (ending.text ++ more) ending ending.text [] more := by
  have hgt : Kind.gt.text = ['>'] := rfl
  have hslash : Kind.slashGt.text = ['/', '>'] := rfl
  simp only [tagEndings, List.mem_cons, List.not_mem_nil, or_false] at h
  rcases h with rfl | rfl
  · rw [hgt]
    exact Mode.reads_tag (by decide) rfl
  · rw [hslash]
    exact Mode.reads_tag (by decide) rfl

/-- An attribute is seen by its name, behind a space. -/
theorem reads_attribute (a : XmlAttribute) (more : Text) :
    Mode.xmlTag.ReadsBehind gap (printAttribute a ++ more) .name a.name.text []
      ('=' :: (a.quoted ++ more)) := by
  have hsource : printAttribute a ++ more = ' ' :: (a.name.text ++ '=' :: (a.quoted ++ more)) := by
    simp [printAttribute]
  have hends : Markup.EndsName ('=' :: (a.quoted ++ more)) := by
    have heq : isTagContinue '=' = false :=
      (isTagContinue_ascii (by decide)).trans (by decide)
    simp [Markup.EndsName, heq]
  rw [hsource]
  exact Mode.reads_tag_gap (isTagSolid_of_isTagStart a.name.isStart) (Markup.tag_name a.name hends)

theorem endsName_tagEnding {ending : Kind} (h : ending ∈ tagEndings) (more : Text) :
    Markup.EndsName (ending.text ++ more) := by
  have hnone : ∀ k ∈ tagEndings, k.text.head?.any isTagContinue = false := by
    intro k hk
    simp only [tagEndings, List.mem_cons, List.not_mem_nil, or_false] at hk
    rcases hk with rfl | rfl <;> exact (isTagContinue_ascii (by decide)).trans (by decide)
  have hne : ∀ k ∈ tagEndings, k.text ≠ [] := by decide
  obtain ⟨c, cs, htext⟩ := List.exists_cons_of_ne_nil (hne _ h)
  have hc := hnone _ h
  rw [htext] at hc ⊢
  exact hc

end Xml

namespace Setting

open Xml

variable [Alphabet] {E : Setting}

theorem goes_seesIn {mode : Mode} {rest text more : Text} {kind : Kind} {lead tail : List Trivia}
    (h : mode.ReadsBehind lead rest kind text tail more) (kind' : Kind) (mode' : Mode)
    (made : List Shape) :
    E.Goes (seesIn mode kind') ⟨rest, mode', made⟩ (kind == kind') ⟨rest, mode, made⟩ :=
  (goes_look_behind _ _ _ _ h).bind (goes_pure _ _)

variable (hl : E.limits.Endless)
include hl

/-! ## Tags -/

theorem goes_tagName (n : TagName) {more : Text} (hmore : Markup.EndsName more) (mode : Mode)
    (made : List Shape) :
    E.Goes tagName ⟨n.text ++ more, mode, made⟩ (some n.text)
      ⟨more, .operator, .token .name (some .name) [] n.text [] :: made⟩ := by
  have hread : Mode.xmlTag.Reads (n.text ++ more) .name n.text [] more :=
    Mode.reads_tag (isTagSolid_of_isTagStart n.isStart) (Markup.tag_name n hmore)
  exact (goes_look_reads _ _ _ _ hread).bind ((goes_take hl hread _).bind (goes_pure _ _))

/-- **The name in a tag is read again**; the tag of a list has none. -/
theorem goes_tagName? (t : XmlTag) {more : Text} (hmore : Markup.EndsName more)
    (hlist : t = .ofList → ∃ behind, more = '>' :: behind) (mode : Mode) (made : List Shape) :
    ∃ mode', E.Goes tagName? ⟨t.nameText ++ more, mode, made⟩ (t.name?.map TagName.text)
      ⟨more, mode', (shapesOfName t).reverse ++ made⟩ := by
  cases t with
  | named name attributes =>
    have hread : Mode.xmlTag.Reads (name.text ++ more) .name name.text [] more :=
      Mode.reads_tag (isTagSolid_of_isTagStart name.isStart) (Markup.tag_name name hmore)
    exact ⟨.operator, (goes_seesIn hread .gt _ _).bind <|
      .of_neg (by decide) (goes_tagName hl name hmore _ _)⟩
  | ofList =>
    obtain ⟨behind, rfl⟩ := hlist rfl
    have hread : Mode.xmlTag.Reads ('>' :: behind) .gt ['>'] [] behind :=
      Mode.reads_tag (by decide) rfl
    exact ⟨.xmlTag, (goes_seesIn hread .gt _ _).bind (.of_pos (by decide) (goes_pure _ _))⟩

theorem goes_tagAttribute (a : XmlAttribute) (more : Text) (made : List Shape) :
    E.Goes tagAttribute ⟨printAttribute a ++ more, .xmlTag, made⟩ ()
      ⟨more, .operator, shapeOfAttribute a :: made⟩ := by
  have hquote : isTagSolid a.quote = true := by
    rcases a.isQuote with hquote | hquote <;> rw [hquote] <;> decide
  have hsign :
      Mode.xmlTag.Reads ('=' :: (a.quoted ++ more)) .eq Kind.eq.text [] (a.quoted ++ more) :=
    Mode.reads_tag (by decide) rfl
  have hvalue : Mode.xmlTag.Reads (a.quoted ++ more) .string a.quoted [] more :=
    Mode.reads_tag hquote (Markup.tag_quoted a more)
  refine (goes_nodeOf hl ?_).bind (goes_label .attribute _ _ _ _)
  refine (goes_take hl (reads_attribute a more) _).bind
    ((goes_expectIn hl hsign).bind (.of_pos rfl ?_))
  exact (goes_look_reads _ _ _ _ hvalue).bind (goes_take hl hvalue _)

/-- **Attributes are read again**, up to the sign that ends the tag. -/
theorem goes_attributes (as : List XmlAttribute) {ending : Kind} (hending : ending ∈ tagEndings)
    (more : Text) (mode : Mode) (made : List Shape) :
    E.Goes attributes ⟨as.flatMap printAttribute ++ (ending.text ++ more), mode, made⟩ ()
      ⟨ending.text ++ more, .xmlTag, (as.map shapeOfAttribute).reverse ++ made⟩ := by
  refine goes_loop ?_
  induction as generalizing mode made with
  | nil =>
    refine .last ((goes_look_reads _ _ _ _ (reads_tagEnding hending more)).bind ?_)
    simp only [tagEndings, List.mem_cons, List.not_mem_nil, or_false] at hending
    rcases hending with rfl | rfl <;> exact goes_pure _ _
  | cons a as ih =>
    have hrest := ih .operator (shapeOfAttribute a :: made)
    rw [List.flatMap_cons, List.append_assoc, List.map_cons, List.reverse_cons, List.append_assoc]
    refine .more ?_ hrest
    exact (goes_look_behind _ _ _ _ (reads_attribute a _)).bind <|
      (goes_tagAttribute hl a _ made).bind (goes_pure _ _)

/-- **A start tag is read again**, with what it says of the name and of its end.  Its first sign is
read in the mode of what stands in front of it. -/
theorem goes_startTag (t : XmlTag) (ending : Kind) (hending : ending ∈ tagEndings)
    (hlist : t = .ofList → ending = .gt) {more : Text} {mode : Mode}
    (hread : mode.Reads ('<' :: printTag t ++ (ending.text ++ more)) .lt Kind.lt.text []
      (printTag t ++ (ending.text ++ more))) (made : List Shape) :
    E.Goes Grammar.startTag ⟨'<' :: printTag t ++ (ending.text ++ more), mode, made⟩
      (t.name?.map TagName.text, if ending = .slashGt then .closed else .opened)
      ⟨more, .operator, Xml.startTag t ending :: made⟩ := by
  have hends := endsName_attributes t.attributes (endsName_tagEnding hending more)
  have hgt (hof : t = .ofList) :
      ∃ behind, t.attributes.flatMap printAttribute ++ (ending.text ++ more) = '>' :: behind := by
    rw [hlist hof, hof]
    exact ⟨more, rfl⟩
  obtain ⟨mode', hname⟩ := goes_tagName? hl t hends hgt .operator [.sign .lt none []]
  rw [← printTag_append] at hname
  have hattributes := goes_attributes hl t.attributes hending more mode'
    ((shapesOfName t).reverse ++ [.sign .lt none []])
  have hclose := reads_tagEnding hending more
  let kids := Shape.sign .lt none [] :: shapesOfName t ++ t.attributes.map shapeOfAttribute ++
    [.sign ending none []]
  refine Goes.bind (d := ⟨more, .operator, .node .xmlStartTag none kids :: made⟩) (goes_node hl ?_)
    ((goes_label .openTag _ _ _ _).bind (goes_pure _ _))
  refine (goes_take hl hread none).bind (hname.bind (hattributes.bind ?_))
  refine (goes_seesIn hclose .slashGt _ _).bind ?_
  simp only [tagEndings, List.mem_cons, List.not_mem_nil, or_false] at hending
  rcases hending with rfl | rfl
  · refine .of_neg (by decide) ((goes_expectIn hl hclose).bind ?_)
    simpa [kids, Shape.sign] using goes_pure _ _
  · refine .of_pos (by decide) ((goes_take hl hclose none).bind ?_)
    simpa [kids, Shape.sign] using goes_pure _ _

/-- **An end tag is read again.**  It repeats the name of the start tag. -/
theorem goes_endTag (t : XmlTag) (more : Text) (made : List Shape) (mode : Mode) :
    E.Goes (Grammar.endTag (t.name?.map TagName.text))
      ⟨'<' :: '/' :: (t.nameText ++ '>' :: more), mode, made⟩ ()
      ⟨more, .operator, Xml.endTag t :: made⟩ := by
  have hopen : Mode.xmlContent.Reads ('<' :: '/' :: (t.nameText ++ '>' :: more)) .ltSlash
      Kind.ltSlash.text [] (t.nameText ++ '>' :: more) := Mode.reads_content rfl
  have hclose : Mode.xmlTag.Reads ('>' :: more) .gt Kind.gt.text [] more :=
    Mode.reads_tag (by decide) rfl
  have hends : Markup.EndsName ('>' :: more) := by
    have hgt : isTagContinue '>' = false :=
      (isTagContinue_ascii (by decide)).trans (by decide)
    simp [Markup.EndsName, hgt]
  obtain ⟨mode', hname⟩ := goes_tagName? hl t hends (fun _ => ⟨more, rfl⟩) .operator
    [.sign .ltSlash none []]
  have hcheck (made : List Shape) : E.Goes
      (checkName (t.name?.map TagName.text) (t.name?.map TagName.text))
      ⟨'>' :: more, mode', made⟩ () ⟨'>' :: more, mode', made⟩ := by
    cases t with
    | named name attributes => exact .of_neg (by simp) (goes_pure _ _)
    | ofList => exact goes_pure _ _
  refine (goes_seesIn hopen .ltSlash _ _).bind (.of_pos (by decide) ?_)
  let kids := Shape.sign .ltSlash none [] :: shapesOfName t ++ [.sign .gt none []]
  refine Goes.bind (d := ⟨more, .operator, .node .xmlEndTag none kids :: made⟩) (goes_nodeOf hl ?_)
    (goes_label .closeTag _ _ _ _)
  refine (goes_take hl hopen none).bind (hname.bind ((hcheck _).bind ?_))
  refine (goes_expectIn hl hclose).bind ?_
  simpa [kids, Shape.sign] using goes_pure _ _

end Setting

namespace Xml

open Setting

/-! ## Content -/

/-- What may stand behind the first sign of an element: a name, or the end of the tag. -/
def opensTag [Alphabet] (c : Char) : Bool := isTagStart c || c == '>'

theorem ne_of_opensTag [Alphabet] {c : Char} (h : opensTag c = true) :
    ∀ d ∈ ['!', '?', '/', '<', '='], c ≠ d :=
  ne_of_any_eq_false h <| any_eq_false_ascii
    (q := fun c => c.isAlpha || c == '_' || c == ':' || c == '>')
    (fun h => by rw [opensTag, isTagStart_ascii h]) (by decide)

/-- What an element is printed as begins with a tag. -/
theorem exists_print [Alphabet] (e : Xml) (more : Text) :
    ∃ c cs, e.print ++ more = '<' :: c :: cs ∧ opensTag c = true := by
  have hname (n : TagName) : opensTag n.first = true := by simp [opensTag, n.isStart]
  cases e with
  | closed name attributes =>
    rw [print]
    exact ⟨name.first, _, rfl, hname name⟩
  | paired tag content =>
    rw [print]
    cases tag with
    | named name attributes => exact ⟨name.first, _, rfl, hname name⟩
    | ofList => exact ⟨'>', _, rfl, by simp [opensTag]⟩

/-- Between tags an element is seen by its first sign. -/
theorem reads_print [Alphabet] (e : Xml) (more : Text) :
    Mode.xmlContent.Reads (e.print ++ more) .lt Kind.lt.text [] (e.print ++ more).tail := by
  obtain ⟨c, cs, hprint, hc⟩ := e.exists_print more
  have hmarkup : c ∉ ['!', '?', '/'] := fun hmem =>
    ne_of_opensTag hc c (List.mem_of_mem_take (i := 3) hmem) rfl
  rw [hprint]
  exact Mode.reads_content (Markup.content_lt hmarkup cs)

/-- What is no text begins with the sign of a tag or of other markup. -/
theorem head?_printAll [Alphabet] {is : List XmlItem} (h : is.head?.any XmlItem.isText = false)
    {more : Text}
    (hmore : more.head? = some '<') : (printAll is ++ more).head? = some '<' := by
  have hopening : ∀ e ∈ Markup.enclosures, e.opening.head? = some '<' := by decide
  cases is with
  | nil => exact hmore
  | cons i is =>
    rw [printAll, List.append_assoc]
    cases i with
    | element e =>
      obtain ⟨c, cs, hprint, -⟩ := e.exists_print (printAll is ++ more)
      rw [printItem, hprint]
      rfl
    | text t => cases h
    | enclosed m =>
      have hhead := hopening _ m.isKnown
      rw [printItem, XmlEnclosed.text]
      simp [hhead]

/-- One round of what stands between tags. -/
def contentStep : Parser Bool := do
  let g ← Parser.look .xmlContent
  match g.kind with
  | .xmlText | .xmlComment | .xmlCdata | .xmlPi =>
    Parser.take (some .content)
    return true
  | .lt =>
    callIn .content .element
    return true
  | .lCurly =>
    interpolation .content
    return true
  | _ => return false

theorem content_eq : Grammar.content = loop contentStep := rfl

variable [Alphabet]

/-- A token of content is taken into its slot. -/
theorem goes_contentToken {E : Setting} (hl : E.limits.Endless) {k : Kind}
    (hk : k ∈ [Kind.xmlText, .xmlComment, .xmlCdata, .xmlPi]) {rest text more : Text}
    (hread : Mode.xmlContent.Reads rest k text [] more) (mode : Mode) (made : List Shape) :
    E.Goes contentStep ⟨rest, mode, made⟩ true
      ⟨more, .operator, .token k (some .content) [] text [] :: made⟩ := by
  have htaken : E.Goes (Parser.take (some .content) >>= fun _ => pure true)
      ⟨rest, .xmlContent, made⟩ true
        ⟨more, .operator, .token k (some .content) [] text [] :: made⟩ :=
    (goes_take hl hread (some .content)).bind (goes_pure _ _)
  refine (goes_look_reads _ _ _ _ hread).bind ?_
  simp only [List.mem_cons, List.not_mem_nil, or_false] at hk
  rcases hk with rfl | rfl | rfl | rfl <;> exact htaken

variable {limits : Limits}

mutual

/-- **An element is read again**, up to its last sign.  Its first one is read in the mode of what
stands around it. -/
theorem goes_element (hl : limits.Endless) (e : Xml) (he : e.IsParted) {depth : Nat}
    (hdepth : e.height ≤ depth) {more : Text} {mode : Mode}
    (hread : mode.Reads (e.print ++ more) .lt Kind.lt.text [] (e.print ++ more).tail)
    (made : List Shape) :
    (atDepth limits depth).Goes elementRule ⟨e.print ++ more, mode, made⟩ ()
      ⟨more, .operator, e.shape :: made⟩ := by
  cases e with
  | closed name attributes =>
    have hsource : (closed name attributes).print ++ more =
        '<' :: printTag (.named name attributes) ++ (Kind.slashGt.text ++ more) := by
      have hclose : Kind.slashGt.text = ['/', '>'] := rfl
      simp [print, hclose]
    rw [hsource] at hread ⊢
    have htag := goes_startTag (E := atDepth limits depth) hl (.named name attributes)
      .slashGt (by decide) (by simp) hread []
    rw [shape]
    exact goes_nodeOf hl (htag.bind (.of_neg (by decide) (goes_pure _ _)))
  | paired tag content =>
    have hsource : (paired tag content).print ++ more =
        '<' :: printTag tag ++ (Kind.gt.text ++ (printAll content ++
          '<' :: '/' :: (tag.nameText ++ '>' :: more))) := by
      have hclose : Kind.gt.text = ['>'] := rfl
      simp [print, hclose]
    rw [hsource] at hread ⊢
    rw [IsParted] at he
    rw [height] at hdepth
    have htag := goes_startTag (E := atDepth limits depth) hl tag .gt (by decide) (fun _ => rfl)
      hread []
    have hcontent := goes_loop (rounds_content hl content he hdepth (tag.nameText ++ '>' :: more)
      .operator [startTag tag .gt])
    have hend := goes_endTag (E := atDepth limits depth) hl tag more
      ((shapesAll content).reverse ++ [startTag tag .gt]) .xmlContent
    rw [← content_eq] at hcontent
    rw [shape]
    refine goes_nodeOf hl (htag.bind (.of_pos (by decide) (hcontent.bind ?_)))
    simpa using hend

/-- **The content of an element is read again**, up to the end tag. -/
theorem rounds_content (hl : limits.Endless) (is : List XmlItem) (his : AreParted is) {depth : Nat}
    (hdepth : heightAll is ≤ depth) (behind : Text) (mode : Mode) (made : List Shape) :
    (atDepth limits depth).Rounds contentStep ⟨printAll is ++ '<' :: '/' :: behind, mode, made⟩
      ⟨'<' :: '/' :: behind, .xmlContent, (shapesAll is).reverse ++ made⟩ := by
  match is with
  | [] =>
    have hread :
        Mode.xmlContent.Reads ('<' :: '/' :: behind) .ltSlash Kind.ltSlash.text [] behind :=
      Mode.reads_content rfl
    rw [printAll, shapesAll]
    exact .last ((goes_look_reads _ _ _ _ hread).bind (goes_pure _ _))
  | i :: is =>
    rw [AreParted] at his
    rw [heightAll] at hdepth
    obtain ⟨hi, htext, his⟩ := his
    have hends (h : i.isText = true) :
        (printAll is ++ '<' :: '/' :: behind).head?.any Markup.isContent = false := by
      rw [head?_printAll (htext h) rfl]
      rfl
    have hitem := goes_item hl i hi (by omega : heightOf i ≤ depth) hends mode made
    have hrest := rounds_content hl is his (by omega : heightAll is ≤ depth) behind .operator
      (shapeOfItem i :: made)
    rw [printAll, shapesAll, List.append_assoc, List.reverse_cons, List.append_assoc]
    exact .more hitem hrest

theorem goes_item (hl : limits.Endless) (i : XmlItem) (hi : IsPartedItem i) {depth : Nat}
    (hdepth : heightOf i ≤ depth) {more : Text}
    (hmore : i.isText = true → more.head?.any Markup.isContent = false) (mode : Mode)
    (made : List Shape) :
    (atDepth limits depth).Goes contentStep ⟨printItem i ++ more, mode, made⟩ true
      ⟨more, .operator, shapeOfItem i :: made⟩ := by
  cases i with
  | element e =>
    rw [IsPartedItem] at hi
    rw [heightOf] at hdepth
    obtain ⟨below, rfl⟩ : ∃ below, depth = below + 1 := ⟨depth - 1, by omega⟩
    have helement := goes_element hl e hi (by omega : e.height ≤ below) (e.reads_print more) made
    rw [printItem, shapeOfItem]
    refine (goes_look_reads _ _ _ _ (e.reads_print more)).bind ?_
    exact (goes_callIn (goes_call .element helement)).bind (goes_pure _ _)
  | text t =>
    rw [printItem, shapeOfItem]
    exact goes_contentToken hl (by decide) (Mode.reads_content (Markup.content_text t (hmore rfl)))
      mode made
  | enclosed m =>
    have hkind : ∀ e ∈ Markup.enclosures,
        e.kind ∈ [Kind.xmlText, .xmlComment, .xmlCdata, .xmlPi] := by
      decide
    rw [printItem, shapeOfItem]
    exact goes_contentToken hl (hkind _ m.isKnown)
      (Mode.reads_content (Markup.content_enclosed m more)) mode made

end

end Xml

end ActionScript
