import ActionScript.Grammar.Recovery

/-!
# XML elements

`<tag attr="v">content</tag>`, `<tag/>` and lists `<>…</>`.  Inside tags and between them tokens are
read in modes of their own; `{…}` goes back to ordinary expressions.
-/

set_option autoImplicit false

namespace ActionScript.Grammar

open ActionScript.Parser

/-- `{…}` inside a tag or between tags.  The closing brace is read as in a tag, so that it takes no
blanks from the content behind it. -/
def interpolation (field : Field) : Parser Unit := do
  nodeOf .xmlExpr do
    take none
    expression .expression
    let _ ← expectIn .xmlTag .rCurly
  label field

/-- The name of a tag.  Its text is given if it is written out. -/
def tagName : Parser (Option Text) := do
  let g ← look .xmlTag
  match g.kind with
  | .name =>
    take (some .name)
    return some g.text
  | .lCurly =>
    interpolation .name
    return none
  | _ =>
    missing .expectedTagName
    return none

/-- The name of a tag, unless the tag is that of a list. -/
def tagName? : Parser (Option Text) := do
  if ← seesIn .xmlTag .gt then return none else tagName

/-- `name="value"` or `name={…}`. -/
def tagAttribute : Parser Unit := do
  nodeOf .xmlAttribute do
    take (some .name)
    when (← expectIn .xmlTag .eq) do
      let g ← look .xmlTag
      match g.kind with
      | .string => take (some .value)
      | .lCurly => interpolation .value
      | _ => missing .expectedAttributeValue
  label .attribute

/-- The attributes of a tag. -/
def attributes : Parser Unit :=
  loop do
    let g ← look .xmlTag
    match g.kind with
    | .name =>
      tagAttribute
      return true
    | .lCurly =>
      interpolation .attribute
      return true
    | _ => return false

/-- How a start tag ends. -/
inductive TagEnd where
  /-- With `/>`. -/
  | closed
  /-- With `>`, before content. -/
  | opened
  /-- Not at all. -/
  | missing
  deriving DecidableEq, Repr

/-- A start tag: its written name and how it ends. -/
def startTag : Parser (Option Text × TagEnd) := do
  let result ← node do
    take none
    let name ← tagName?
    attributes
    if ← seesIn .xmlTag .slashGt then
      take none
      return (.xmlStartTag, (name, .closed))
    else
      let found ← expectIn .xmlTag .gt
      return (.xmlStartTag, (name, if found then .opened else .missing))
  label .openTag
  return result

/-- What stands between the tags of an element. -/
def content : Parser Unit :=
  loop do
    let g ← look .xmlContent
    match g.kind with
    | .xmlText | .xmlComment | .xmlCdata | .xmlPi =>
      take (some .content)
      return true
    | .lt =>
      callIn .content .element
      return true
    | .lCurly =>
      interpolation .content
      return true
    | _ => return false

/-- Reports a written name that differs from that of the start tag. -/
def checkName : (opening closing : Option Text) → Parser Unit
  | some opening, some closing =>
    when (opening != closing) (report (.mismatchedTag closing opening))
  | _, _ => pure ()

/-- The end tag of an element whose start tag has the given name. -/
def endTag (opening : Option Text) : Parser Unit := do
  if ← seesIn .xmlContent .ltSlash then
    nodeOf .xmlEndTag do
      take none
      let closing ← tagName?
      checkName opening closing
      let _ ← expectIn .xmlTag .gt
    label .closeTag
  else report .expectedClosingTag

/-- An element. -/
def elementRule : Parser Unit :=
  nodeOf .xmlElement do
    let (name, ending) ← startTag
    when (ending == .opened) do
      content
      endTag name

end ActionScript.Grammar
