import ActionScript.Kind.Basic
import ActionScript.Text.Letter
import ActionScript.Text.Basic

/-!
# Tokens

A token is a piece of text with a kind, together with the blanks and comments around it.  How a
piece of text is cut into tokens depends on what the reader expects there, its *mode*: `/` divides
after an operand and opens a regular expression before one.
-/

set_option autoImplicit false

namespace ActionScript

/-- What the reader of a token expects. -/
inductive Mode where
  /-- After an operand: `/` divides and `<` compares. -/
  | operator
  /-- Before an operand: `/` opens a regular expression, `<` stands alone, `-Infinity` is one
  number. -/
  | exprStart
  /-- Inside `.<…>`: `>` stands alone. -/
  | typeArgs
  /-- Inside a start or end tag. -/
  | xmlTag
  /-- Between tags, where blanks are content. -/
  | xmlContent
  deriving DecidableEq, Repr

/-- Is ordinary code expected, with comments? -/
def Mode.isCode : Mode → Bool
  | .operator | .exprStart | .typeArgs => true
  | .xmlTag | .xmlContent => false

/-- The sorts of text between tokens. -/
inductive TriviaKind where
  | whitespace
  | newline
  | lineComment
  | blockComment
  deriving DecidableEq, Repr

/-- The kind of a token that holds such text. -/
def TriviaKind.kind : TriviaKind → Kind
  | .whitespace => .whitespace
  | .newline => .newline
  | .lineComment => .lineComment
  | .blockComment => .blockComment

/-- A piece of text between tokens. -/
structure Trivia where
  kind : TriviaKind
  text : Text
  deriving DecidableEq, Repr

/-- Does the piece end a line?  A block comment does if it spans lines. -/
def Trivia.breaksLine (t : Trivia) : Bool :=
  match t.kind with
  | .newline => true
  | .blockComment => t.text.any isLineBreak
  | .whitespace | .lineComment => false

/-- The text of several pieces. -/
def Trivia.flatten (ts : List Trivia) : Text := ts.flatMap Trivia.text

/-- What can be wrong with a token. -/
inductive LexError where
  | unterminatedString
  | unterminatedRegex
  | unterminatedComment
  | unterminatedXml
  | invalidEscape
  | unexpectedCharacter (c : Char)
  deriving DecidableEq, Repr

/-- The wording of an error. -/
def LexError.message : LexError → String
  | .unterminatedString => "unterminated string literal"
  | .unterminatedRegex => "unterminated regular expression literal"
  | .unterminatedComment => "unterminated block comment"
  | .unterminatedXml => "unterminated XML markup"
  | .invalidEscape => "invalid escape sequence"
  | .unexpectedCharacter c => "unexpected character `" ++ String.singleton c ++ "`"

/-- An error and where it lies. -/
structure Flaw where
  error : LexError
  span : Span
  deriving DecidableEq, Repr

/-- Moves a flaw to the right. -/
def Flaw.shift (f : Flaw) (n : Nat) : Flaw := ⟨f.error, f.span.shift n⟩

/-- A token with the text around it.  `start` is where its leading pieces begin. -/
structure Token where
  kind : Kind
  start : Nat
  leading : List Trivia
  text : Text
  trailing : List Trivia
  flaw : Option Flaw
  deriving DecidableEq, Repr

namespace Token

/-- Where the token itself lies. -/
def span (t : Token) : Span :=
  let first := t.start + (Trivia.flatten t.leading).size
  ⟨first, first + t.text.size⟩

/-- Where the token lies together with its pieces of trivia. -/
def fullSpan (t : Token) : Span := ⟨t.start, t.span.stop + (Trivia.flatten t.trailing).size⟩

/-- The source text of a token with the pieces around it. -/
def source (t : Token) : Text := Trivia.flatten t.leading ++ t.text ++ Trivia.flatten t.trailing

/-- Does the token stand on a later line than the one before it? -/
def startsLine (t : Token) : Bool := t.leading.any Trivia.breaksLine

end Token

/-- A place to read from: the offset of the next character and what is left of the text. -/
structure Place where
  offset : Nat
  rest : Text
  deriving DecidableEq, Repr

namespace Place

/-- The beginning of a text. -/
def start (text : Text) : Place := ⟨0, text⟩

/-- The place at an offset; there is none past the end or inside a character. -/
def of? (text : Text) (offset : Nat) : Option Place :=
  (text.splitAt? offset).map fun (_, rest) => ⟨offset, rest⟩

/-- The end of the text. -/
def finish (p : Place) : Place := ⟨p.offset + p.rest.size, []⟩

end Place

/-- A token cut from the head of a text, and the rest.  Its flaw counts from the token's start. -/
structure Lexeme where
  kind : Kind
  text : Text
  rest : Text
  flaw : Option Flaw := none
  deriving DecidableEq, Repr

/-- A flawed lexeme: all of its text is at fault. -/
def Lexeme.faulty (error : LexError) (kind : Kind) (text rest : Text) : Lexeme :=
  ⟨kind, text, rest, some ⟨error, ⟨0, text.size⟩⟩⟩

end ActionScript
