import ActionScript.Proofs.Printing.Syntax
import ActionScript.Token.Markup

/-!
# XML elements and how they are printed

Elements as they are meant: names, attributes with quoted values, and content.  They are printed
with a single space in front of each attribute and no other blanks, so that all text between tags is
content.

* `Xml`, `XmlItem`: an element, and what stands between its tags.
* `TagName.eq_of_text`, `XmlAttribute.eq_of_quoted`, `XmlEnclosed.eq_of_text`: the text of each
  tells it.
* `Xml.print`, `Xml.shape`: the text of an element, and the shape that it stands for.
* `Xml.source_shape`: **the shape has the printed text as its source.**
* `Xml.IsParted`: no two pieces of text stand side by side, which would be read as one.
-/

set_option autoImplicit false

namespace ActionScript

/-! ## Names, attributes and pieces of content -/

/-- A name as it is written in a tag. -/
structure TagName [Alphabet] where
  first : Char
  others : Text
  isStart : isTagStart first = true
  isContinued : others.all isTagContinue = true

/-- The text of a name. -/
def TagName.text [Alphabet] (n : TagName) : Text := n.first :: n.others

theorem TagName.eq_of_text [Alphabet] {m n : TagName} (h : m.text = n.text) : m = n := by
  obtain ⟨first, others, _, _⟩ := m
  obtain ⟨first', others', _, _⟩ := n
  obtain ⟨rfl, rfl⟩ := List.cons.inj h
  rfl

/-- An attribute, with its value in quotes of either sort. -/
structure XmlAttribute [Alphabet] where
  name : TagName
  quote : Char
  value : Text
  isQuote : quote = '"' ∨ quote = '\''
  isFree : quote ∉ value

/-- The value in its quotes. -/
def XmlAttribute.quoted [Alphabet] (a : XmlAttribute) : Text := a.quote :: a.value ++ [a.quote]

theorem XmlAttribute.eq_of_quoted [Alphabet] {a b : XmlAttribute} (hname : a.name = b.name)
    (h : a.quoted = b.quoted) : a = b := by
  obtain ⟨name, quote, value, _, _⟩ := a
  obtain ⟨name', quote', value', _, _⟩ := b
  obtain rfl : name = name' := hname
  obtain ⟨hquote, hvalue⟩ := List.cons.inj h
  obtain rfl : quote = quote' := hquote
  obtain rfl : value = value' := List.append_inj_left' hvalue rfl
  rfl

/-- A piece of text between tags. -/
structure XmlText where
  text : Text
  nonempty : text ≠ []
  isContent : text.all Markup.isContent = true

theorem XmlText.eq_of_text {s t : XmlText} (h : s.text = t.text) : s = t := by
  obtain ⟨text, _, _⟩ := s
  obtain ⟨text', _, _⟩ := t
  obtain rfl : text = text' := h
  rfl

/-- A comment, character data or a processing instruction. -/
structure XmlEnclosed where
  enclosure : Markup.Enclosure
  isKnown : enclosure ∈ Markup.enclosures
  body : Text
  isFree : ¬enclosure.closing <:+: body

/-- The body between its marks. -/
def XmlEnclosed.text (m : XmlEnclosed) : Text :=
  m.enclosure.opening ++ m.body ++ m.enclosure.closing

/-- A kind tells the marks. -/
theorem Markup.eq_of_kind {e f : Markup.Enclosure} (he : e ∈ Markup.enclosures)
    (hf : f ∈ Markup.enclosures) (h : e.kind = f.kind) : e = f := by
  simp only [Markup.enclosures, List.mem_cons, List.not_mem_nil, or_false] at he hf
  rcases he with rfl | rfl | rfl <;> rcases hf with rfl | rfl | rfl <;> first
    | rfl
    | cases h

theorem XmlEnclosed.eq_of_text {l m : XmlEnclosed} (hkind : l.enclosure.kind = m.enclosure.kind)
    (h : l.text = m.text) : l = m := by
  have henclosure := Markup.eq_of_kind l.isKnown m.isKnown hkind
  obtain ⟨enclosure, _, body, _⟩ := l
  obtain ⟨enclosure', _, body', _⟩ := m
  obtain rfl : enclosure = enclosure' := henclosure
  obtain rfl : body = body' := by simpa [XmlEnclosed.text] using h
  rfl

variable [Alphabet]

/-- What a start tag holds, and the end tag repeats the name of.  The tag of a list is empty. -/
inductive XmlTag where
  | named (name : TagName) (attributes : List XmlAttribute)
  | ofList

namespace XmlTag

/-- The name, if there is one. -/
def name? : XmlTag → Option TagName
  | named name _ => some name
  | ofList => none

/-- The attributes. -/
def attributes : XmlTag → List XmlAttribute
  | named _ attributes => attributes
  | ofList => []

/-- The text of the name. -/
def nameText (t : XmlTag) : Text := (t.name?.map TagName.text).getD []

end XmlTag

/-! ## Elements -/

mutual

/-- An XML element. -/
inductive Xml where
  /-- `<name …/>` -/
  | closed (name : TagName) (attributes : List XmlAttribute)
  /-- `<name …>…</name>` or `<>…</>` -/
  | paired (tag : XmlTag) (content : List XmlItem)

/-- What stands between the tags of an element. -/
inductive XmlItem where
  | element (e : Xml)
  | text (t : XmlText)
  | enclosed (m : XmlEnclosed)

end

/-- Is it a piece of text? -/
def XmlItem.isText : XmlItem → Bool
  | .text _ => true
  | _ => false

namespace Xml

/-- What the start tag holds. -/
def tag : Xml → XmlTag
  | closed name attributes => .named name attributes
  | paired tag _ => tag

/-- The content. -/
def content : Xml → List XmlItem
  | closed _ _ => []
  | paired _ content => content

/-- Is the start tag the whole of it? -/
def isClosed : Xml → Bool
  | closed _ _ => true
  | paired _ _ => false

mutual

/-- How deeply elements nest in it. -/
def height : Xml → Nat
  | closed _ _ => 0
  | paired _ content => heightAll content

/-- How deeply elements nest in the items. -/
def heightAll : List XmlItem → Nat
  | [] => 0
  | i :: is => max (heightOf i) (heightAll is)

/-- How deeply elements nest in an item. -/
def heightOf : XmlItem → Nat
  | .element e => e.height + 1
  | .text _ | .enclosed _ => 0

end

mutual

/-- No two pieces of text stand side by side. -/
def IsParted : Xml → Prop
  | closed _ _ => True
  | paired _ content => AreParted content

/-- No two pieces of text stand side by side, neither among the items nor inside of them. -/
def AreParted : List XmlItem → Prop
  | [] => True
  | i :: is =>
    IsPartedItem i ∧ (i.isText = true → is.head?.any XmlItem.isText = false) ∧ AreParted is

/-- No two pieces of text stand side by side inside an item. -/
def IsPartedItem : XmlItem → Prop
  | .element e => e.IsParted
  | .text _ | .enclosed _ => True

end

/-- A start tag without attributes stands directly in front of text.  Where an operand is expected,
such a tag may be taken for the type of a vector. -/
def opensBarely (e : Xml) : Bool :=
  e.tag.attributes.isEmpty && e.content.head?.any XmlItem.isText

/-! ## Printing -/

/-- An attribute, with the space in front of it. -/
def printAttribute (a : XmlAttribute) : Text := ' ' :: a.name.text ++ '=' :: a.quoted

/-- What stands between `<` and the end of a start tag. -/
def printTag (t : XmlTag) : Text := t.nameText ++ t.attributes.flatMap printAttribute

mutual

/-- **The text of an element.** -/
def print : Xml → Text
  | closed name attributes => '<' :: printTag (.named name attributes) ++ ['/', '>']
  | paired tag content =>
    '<' :: printTag tag ++ '>' :: printAll content ++ ['<', '/'] ++ tag.nameText ++ ['>']

/-- The text of items in a row. -/
def printAll : List XmlItem → Text
  | [] => []
  | i :: is => printItem i ++ printAll is

/-- The text of an item. -/
def printItem : XmlItem → Text
  | .element e => e.print
  | .text t => t.text
  | .enclosed m => m.text

end

/-! ## The shapes that are meant -/

/-- The name in a tag, in its slot. -/
def shapesOfName (t : XmlTag) : List Shape :=
  match t.name? with
  | some name => [.token .name (some .name) [] name.text []]
  | none => []

/-- An attribute, in its slot. -/
def shapeOfAttribute (a : XmlAttribute) : Shape :=
  .node .xmlAttribute (some .attribute)
    [.token .name (some .name) Trivia.gap a.name.text [], .sign .eq none [],
     .token .string (some .value) [] a.quoted []]

/-- A start tag with the sign that ends it. -/
def startTag (t : XmlTag) (ending : Kind) : Shape :=
  .node .xmlStartTag (some .openTag)
    (.sign .lt none [] :: shapesOfName t ++ t.attributes.map shapeOfAttribute ++
      [.sign ending none []])

/-- An end tag. -/
def endTag (t : XmlTag) : Shape :=
  .node .xmlEndTag (some .closeTag)
    (.sign .ltSlash none [] :: shapesOfName t ++ [.sign .gt none []])

mutual

/-- **The shape that an element stands for.** -/
def shape : Xml → Shape
  | closed name attributes =>
    .node .xmlElement none [startTag (.named name attributes) .slashGt]
  | paired tag content =>
    .node .xmlElement none (startTag tag .gt :: shapesAll content ++ [endTag tag])

/-- The shapes of items in a row, in their slots. -/
def shapesAll : List XmlItem → List Shape
  | [] => []
  | i :: is => shapeOfItem i :: shapesAll is

/-- The shape of an item, in its slot. -/
def shapeOfItem : XmlItem → Shape
  | .element e => e.shape.withField .content
  | .text t => .token .xmlText (some .content) [] t.text []
  | .enclosed m => .token m.enclosure.kind (some .content) [] m.text []

end

/-! ## The source of a shape -/

open Shape Trivia

theorem sourceAll_shapesOfName (t : XmlTag) : sourceAll (shapesOfName t) = t.nameText := by
  cases t with
  | named name attributes =>
    simp [shapesOfName, XmlTag.name?, XmlTag.nameText, sourceAll, source, flatten_nil]
  | ofList => rfl

theorem source_shapeOfAttribute (a : XmlAttribute) :
    (shapeOfAttribute a).source = printAttribute a := by
  have heq : Kind.eq.text = ['='] := rfl
  simp [shapeOfAttribute, printAttribute, sourceAll, source, sign, flatten_nil, flatten_gap, heq]

theorem sourceAll_shapesOfAttributes (as : List XmlAttribute) :
    sourceAll (as.map shapeOfAttribute) = as.flatMap printAttribute := by
  induction as with
  | nil => rfl
  | cons a as ih => rw [List.map_cons, sourceAll, ih, source_shapeOfAttribute, List.flatMap_cons]

theorem source_startTag (t : XmlTag) (ending : Kind) :
    (startTag t ending).source = '<' :: printTag t ++ ending.text := by
  have hopen : Kind.lt.text = ['<'] := rfl
  simp [startTag, source, sourceAll, sourceAll_append, sourceAll_shapesOfName,
    sourceAll_shapesOfAttributes, source_sign, flatten_nil, hopen, printTag]

theorem source_endTag (t : XmlTag) :
    (endTag t).source = ['<', '/'] ++ t.nameText ++ ['>'] := by
  have hopen : Kind.ltSlash.text = ['<', '/'] := rfl
  have hclose : Kind.gt.text = ['>'] := rfl
  simp [endTag, source, sourceAll, sourceAll_append, sourceAll_shapesOfName, source_sign,
    flatten_nil, hopen, hclose]

mutual

/-- **The shape of an element has the printed text as its source.** -/
theorem source_shape (e : Xml) : e.shape.source = e.print := by
  cases e with
  | closed name attributes =>
    have hclose : Kind.slashGt.text = ['/', '>'] := rfl
    rw [shape, source, sourceAll, source_startTag, hclose, print, sourceAll, List.append_nil]
  | paired tag content =>
    have hclose : Kind.gt.text = ['>'] := rfl
    rw [shape, source, List.cons_append, sourceAll, source_startTag, hclose, sourceAll_append,
      sourceAll_shapesAll content, sourceAll, source_endTag, sourceAll, print]
    simp

theorem sourceAll_shapesAll (is : List XmlItem) : sourceAll (shapesAll is) = printAll is := by
  match is with
  | [] => rw [shapesAll, sourceAll, printAll]
  | i :: is => rw [shapesAll, sourceAll, source_shapeOfItem i, sourceAll_shapesAll is, printAll]

theorem source_shapeOfItem (i : XmlItem) : (shapeOfItem i).source = printItem i := by
  cases i with
  | element e => rw [shapeOfItem, source_withField, source_shape e, printItem]
  | text t => simp [shapeOfItem, printItem, source, flatten_nil]
  | enclosed m => simp [shapeOfItem, printItem, source, flatten_nil]

end

end Xml

end ActionScript
