import ActionScript.Kind.Basic

/-!
# Spelling

Punctuation, operators and keywords have one spelling each; the other kinds have none.  The same
table serves to recognise keywords and to name kinds in messages.
-/

set_option autoImplicit false

namespace ActionScript.Kind

/-- The source text of punctuation, operators and keywords. -/
def spelling : Kind → Option String
  | .lParen => some "("
  | .rParen => some ")"
  | .lBrack => some "["
  | .rBrack => some "]"
  | .lCurly => some "\x7b"
  | .rCurly => some "\x7d"
  | .semicolon => some ";"
  | .comma => some ","
  | .dot => some "."
  | .dot2 => some ".."
  | .dot3 => some "..."
  | .dotLt => some ".<"
  | .colon => some ":"
  | .colon2 => some "::"
  | .question => some "?"
  | .tilde => some "~"
  | .eq => some "="
  | .eq2 => some "=="
  | .eq3 => some "==="
  | .bang => some "!"
  | .neq => some "!="
  | .neq2 => some "!=="
  | .lt => some "<"
  | .lteq => some "<="
  | .shl => some "<<"
  | .shlEq => some "<<="
  | .gt => some ">"
  | .gteq => some ">="
  | .shr => some ">>"
  | .shrEq => some ">>="
  | .ushr => some ">>>"
  | .ushrEq => some ">>>="
  | .plus => some "+"
  | .plus2 => some "++"
  | .plusEq => some "+="
  | .minus => some "-"
  | .minus2 => some "--"
  | .minusEq => some "-="
  | .star => some "*"
  | .starEq => some "*="
  | .slash => some "/"
  | .slashEq => some "/="
  | .percent => some "%"
  | .percentEq => some "%="
  | .amp => some "&"
  | .amp2 => some "&&"
  | .ampEq => some "&="
  | .amp2Eq => some "&&="
  | .pipe => some "|"
  | .pipe2 => some "||"
  | .pipeEq => some "|="
  | .pipe2Eq => some "||="
  | .caret => some "^"
  | .caretEq => some "^="
  | .ltSlash => some "</"
  | .slashGt => some "/>"
  | .asKw => some "as"
  | .breakKw => some "break"
  | .caseKw => some "case"
  | .catchKw => some "catch"
  | .classKw => some "class"
  | .constKw => some "const"
  | .continueKw => some "continue"
  | .defaultKw => some "default"
  | .deleteKw => some "delete"
  | .doKw => some "do"
  | .dynamicKw => some "dynamic"
  | .eachKw => some "each"
  | .elseKw => some "else"
  | .extendsKw => some "extends"
  | .falseKw => some "false"
  | .finalKw => some "final"
  | .finallyKw => some "finally"
  | .forKw => some "for"
  | .functionKw => some "function"
  | .getKw => some "get"
  | .ifKw => some "if"
  | .implementsKw => some "implements"
  | .importKw => some "import"
  | .inKw => some "in"
  | .includeKw => some "include"
  | .instanceofKw => some "instanceof"
  | .interfaceKw => some "interface"
  | .internalKw => some "internal"
  | .isKw => some "is"
  | .namespaceKw => some "namespace"
  | .newKw => some "new"
  | .nullKw => some "null"
  | .overrideKw => some "override"
  | .packageKw => some "package"
  | .privateKw => some "private"
  | .protectedKw => some "protected"
  | .publicKw => some "public"
  | .returnKw => some "return"
  | .setKw => some "set"
  | .staticKw => some "static"
  | .superKw => some "super"
  | .switchKw => some "switch"
  | .thisKw => some "this"
  | .throwKw => some "throw"
  | .trueKw => some "true"
  | .tryKw => some "try"
  | .typeofKw => some "typeof"
  | .undefinedKw => some "undefined"
  | .useKw => some "use"
  | .varKw => some "var"
  | .voidKw => some "void"
  | .whileKw => some "while"
  | .withKw => some "with"
  | _ => none

/-- Kinds with a spelling that are no keywords, in order. -/
def punctuation : List Kind := all.filter fun k => k.spelling.isSome && !k.isKeyword

/-- Keyword kinds, in order. -/
def keywords : List Kind := all.filter isKeyword

/-- Is `word` the spelling of `k`? -/
def spells (k : Kind) (word : List Char) : Bool := k.spelling.any fun s => s.toList == word

/-- The keyword that `word` spells. -/
def ofWord? (word : List Char) : Option Kind := keywords.find? fun k => k.spells word

/-- The name of `k` in a message: its spelling in back quotes, or a phrase. -/
def describe (k : Kind) : String :=
  match k.spelling with
  | some s => "`" ++ s ++ "`"
  | none =>
    match k with
    | .name => "identifier"
    | .number => "number"
    | .string => "string"
    | .regex => "regular expression"
    | .eof => "end of file"
    | _ => String.ofList (k.tag.toList.map fun c => if c == '_' then ' ' else c)

end ActionScript.Kind
