import ActionScript.Grammar.Expressions

/-!
# Declarations

A declaration is a run of words that leads up to its keyword.  Whether a statement is one is decided
by looking ahead: attribute words may stand on any line, and any other word counts as a namespace
only if another word follows it on the same line.  Annotations in brackets may come first.
-/

set_option autoImplicit false

namespace ActionScript.Grammar

open ActionScript.Parser

/-! ## Looking ahead -/

/-- Words allowed in front of `class`. -/
def classAttributes : List String := ["dynamic", "final", "internal", "public"]

/-- Words allowed in front of every other declaration. -/
def propertyAttributes : List String :=
  ["final", "internal", "override", "private", "protected", "public", "static"]

/-- The keyword of the declaration that the words from distance `i` on lead up to.  At most `limit`
words are looked at. -/
def declarationWord? : (limit i : Nat) → Parser (Option Kind)
  | 0, _ => return none
  | limit + 1, i => do
    let g ← ahead i
    if g.kind != .name then return none
    else
      match Kind.ofWord? g.text with
      | some .classKw => return some .classKw
      | some .interfaceKw => return some .interfaceKw
      | some .varKw => return some .varKw
      | some .constKw => return some .constKw
      | some .functionKw =>
        let next ← ahead (i + 1)
        return if next.kind == .lParen then none else some .functionKw
      | some .namespaceKw =>
        let next ← ahead (i + 1)
        return if next.kind == .name then some .namespaceKw else none
      | _ =>
        if g.isOneOf classAttributes || g.isOneOf propertyAttributes then
          declarationWord? limit (i + 1)
        else
          let next ← ahead (i + 1)
          if next.kind == .name && !next.startsLine then declarationWord? limit (i + 1)
          else return none

/-- How many words a declaration may have up to its keyword. -/
def wordLimit : Nat := 16

/-- The keyword of the declaration that comes next. -/
def nextDeclaration? : Parser (Option Kind) := declarationWord? wordLimit 0

/-- How many tokens of annotations are looked through. -/
def metadataLimit : Nat := 64

/-- The distance behind the brackets that are open at distance `j`, `depth` of them, and behind one
more `]`.  At most `limit` tokens are looked at. -/
def behindArguments? : (limit j depth : Nat) → Parser (Option Nat)
  | 0, _, _ => return none
  | limit + 1, j, depth => do
    let g ← ahead j
    match g.kind with
    | .lParen | .lBrack | .lCurly => behindArguments? limit (j + 1) (depth + 1)
    | .rParen | .rBrack | .rCurly =>
      if depth ≤ 1 then
        let next ← ahead (j + 1)
        return if next.kind == .rBrack then some (j + 2) else none
      else behindArguments? limit (j + 1) (depth - 1)
    | .eof => return none
    | _ => behindArguments? limit (j + 1) depth

/-- The distance behind the annotation at distance `i`. -/
def behindMetadata? (i : Nat) : Parser (Option Nat) := do
  let first ← ahead i
  if first.kind != .lBrack then return none
  else
    let second ← ahead (i + 1)
    if second.kind != .name then return none
    else
      let third ← ahead (i + 2)
      match third.kind with
      | .rBrack => return some (i + 3)
      | .lParen => behindArguments? (metadataLimit - 2) (i + 2) 0
      | _ => return none

/-- The distance behind all annotations from distance `i` on.  An annotation has at least three
tokens, so `limit` need not exceed a third of the tokens looked through. -/
def behindMetadataRun : (limit i : Nat) → Parser Nat
  | 0, i => return i
  | limit + 1, i => do
    if metadataLimit ≤ i then return i
    else
      match ← behindMetadata? i with
      | some next => behindMetadataRun limit next
      | none => return i

/-- Does a run of annotations with a declaration behind it come next? -/
def seesAnnotatedDeclaration : Parser Bool := do
  let i ← behindMetadataRun metadataLimit 0
  if i == 0 then return false else return (← declarationWord? wordLimit i).isSome

/-! ## Annotations and modifiers -/

/-- `value` or `key = value`. -/
def metadataArgument? : Parser Bool := do
  let g ← look .operator
  if expressionFirst.contains g.kind then
    nodeOf .metadataArg do
      let next ← ahead 1
      when (g.kind == .name && next.kind == .eq) do
        name .name []
        take none
      assignment .value
    return true
  else
    return false

/-- `[Name(arguments)]`. -/
def metadata : Parser Unit := do
  nodeOf .metadata do
    take none
    name .name [.lParen]
    when (← sees .lParen) do
      nodeOf .metadataArgList <|
        delimited ⟨.lParen, .rParen, .expectedMetadataArgument, expressionFirst⟩
          metadataArgument?
      label .arguments
    expect .rBrack
  label .metadata

/-- All annotations that come next. -/
def metadataRun : Parser Unit :=
  loop do
    if (← behindMetadata? 0).isSome then
      metadata
      return true
    else
      return false

/-- A word in front of a declaration. -/
def modifier (kind : Kind) (g : Glimpse) : Parser Unit :=
  match Kind.ofWord? g.text with
  | some keyword => wordLeaf keyword kind
  | none => leaf kind

/-- The words in front of a declaration's keyword.  A class takes its own attributes only; of every
other declaration a bare word is the namespace. -/
def modifiers (keyword : Kind) : Parser Unit :=
  loop do
    let g ← look .operator
    if g.kind != .name || keyword.spells g.text then return false
    else
      (if keyword == .classKw then
        if g.isOneOf classAttributes then modifier .classAttribute g
        else reject (.notClassAttribute g.text)
       else if g.isOneOf classAttributes && !g.isOneOf propertyAttributes then
        reject (.onlyOnClasses g.text)
       else modifier .propertyAttribute g)
      label .modifier
      return true

/-! ## The declarations -/

/-- Members in braces, in the body slot. -/
def memberBody (kind : Kind) : Parser Unit := do
  braced kind
  label .body

/-- A clause that opens with a keyword, in a slot, if that word comes next. -/
def clause? (keyword kind : Kind) (field : Field) (body : Parser Unit) : Parser Unit := do
  let g ← look .operator
  when (g.kind == .name && keyword.spells g.text) do
    nodeOf kind do
      takeWord keyword none
      body
    label field

/-- A class behind its modifiers. -/
def classBody : Parser Unit := do
  takeWord .classKw none
  name .name [.lCurly]
  clause? .extendsKw .extendsClause .superclass (typeIn .type)
  clause? .implementsKw .implementsClause .interfaces typeList
  memberBody .classBody

/-- An interface behind its modifiers. -/
def interfaceBody : Parser Unit := do
  takeWord .interfaceKw none
  name .name [.lCurly]
  clause? .extendsKw .extendsClause .superclass typeList
  memberBody .interfaceBody

/-- `get` or `set`, if a name follows it. -/
def accessor : Parser Unit := do
  let next ← ahead 1
  when (next.kind == .name) do
    let g ← look .operator
    if g.isWord "get" then takeWord .getKw (some .accessor)
    else when (g.isWord "set") (takeWord .setKw (some .accessor))

/-- A function behind its modifiers; it need not have a body. -/
def functionBody : Parser Unit := do
  takeWord .functionKw none
  accessor
  name .name [.lParen, .lCurly]
  signature
  if ← sees .lCurly then
    block
    label .body
  else semicolon

/-- Variables with commas in between. -/
def declarators (r : Restrictions) : Parser Unit :=
  loop do
    nodeOf .variableDeclarator do
      name .name [.colon, .eq, .comma]
      typeAscription? .type
      when (← sees .eq) do
        take none
        callIn .value (.expression .assignment r)
    label .declarator
    eat .comma

/-- Variables or constants behind their modifiers. -/
def variableBody (keyword : Kind) : Parser Unit := do
  takeWord keyword none
  declarators { noSequence := true }
  semicolon

/-- A namespace behind its modifiers. -/
def namespaceBody : Parser Unit := do
  takeWord .namespaceKw none
  name .name [.eq]
  when (← sees .eq) do
    take none
    assignment .value
  semicolon

/-- The declaration that a keyword introduces, and its kind. -/
def declarationBody (keyword : Kind) : Parser Kind := do
  modifiers keyword
  match keyword with
  | .classKw =>
    classBody
    return .classDecl
  | .interfaceKw =>
    interfaceBody
    return .interfaceDecl
  | .functionKw =>
    functionBody
    return .functionDecl
  | .constKw =>
    variableBody .constKw
    return .constantDecl
  | .namespaceKw =>
    namespaceBody
    return .namespaceDecl
  | _ =>
    variableBody .varKw
    return .variableDecl

/-- A declaration. -/
def declaration (keyword : Kind) : Parser Unit :=
  node do return (← declarationBody keyword, ())

/-- Annotations and the declaration behind them. -/
def annotated : Parser Unit :=
  node do
    metadataRun
    match ← nextDeclaration? with
    | some keyword => return (← declarationBody keyword, ())
    | none =>
      report .expectedDeclaration
      return (.error, ())

/-- Variables in the head of a `for`, where `in` ends a value and no semicolon follows. -/
def variableHead : Parser Unit :=
  node do
    let isConst ← seesWord "const"
    takeWord (if isConst then .constKw else .varKw) none
    declarators { noIn := true, noSequence := true }
    return (if isConst then .constantDecl else .variableDecl, ())

/-! ## Directives -/

/-- `package a.b { … }`. -/
def packageDeclaration : Parser Unit :=
  nodeOf .packageDecl do
    takeWord .packageKw none
    when (← sees .name) (qualifiedName .name false)
    block
    label .body

/-- `import a.b.*`. -/
def importStatement : Parser Unit :=
  nodeOf .importStmt do
    takeWord .importKw none
    qualifiedName .name true
    semicolon

/-- `include "path"`. -/
def includeDirective : Parser Unit :=
  nodeOf .includeDirective do
    takeWord .includeKw none
    let found ← sees .string
    (if found then leaf .stringLiteral else missing .expectedPath)
    label .source
    semicolon

/-- `use namespace a, b`. -/
def useNamespaceDirective : Parser Unit :=
  nodeOf .useNamespaceDirective do
    takeWord .useKw none
    takeWord .namespaceKw none
    loop do
      name .nameSpace [.comma]
      eat .comma
    semicolon

end ActionScript.Grammar
