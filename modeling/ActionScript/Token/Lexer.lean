import ActionScript.Token.Trivia
import ActionScript.Token.Code
import ActionScript.Token.Markup

/-!
# Reading tokens

One token is read at a time, at a place and in a mode; nothing is remembered between readings.
`Lexer` adds a moving place over a fixed text.

* `Place.next_append`, `Place.next_offset`: reading loses nothing and moves on by what it reads.
-/

set_option autoImplicit false

namespace ActionScript

/-- The token itself at the head of a text. -/
def Lexeme.read [Alphabet] : Mode → Text → Lexeme
  | .xmlContent => Markup.content
  | .xmlTag => Markup.tag
  | mode => Code.lexeme mode

/-- The pieces in front of a token.  Between tags blanks are content. -/
def Mode.leading (mode : Mode) (cs : Text) : Trivia.Run :=
  if mode == .xmlContent then ⟨[], cs, none⟩ else Trivia.leadingRun mode.isCode cs

/-- The pieces behind a token.  Only code has them, and the end of the text has none. -/
def Mode.trailing (mode : Mode) (kind : Kind) (cs : Text) : Trivia.Run :=
  if mode.isCode && kind != .eof then Trivia.trailingRun cs else ⟨[], cs, none⟩

/-- Reads the token at a place, and gives the place behind it.  Of several flaws the first one
counts. -/
def Place.next [Alphabet] (place : Place) (mode : Mode) : Token × Place :=
  let before := mode.leading place.rest
  let lexeme := Lexeme.read mode before.rest
  let behind := mode.trailing lexeme.kind lexeme.rest
  let start := place.offset + (Trivia.flatten before.pieces).size
  let stop := start + lexeme.text.size
  let flaw := before.flaw.map (·.shift place.offset) <|> lexeme.flaw.map (·.shift start) <|>
    behind.flaw.map (·.shift stop)
  (⟨lexeme.kind, place.offset, before.pieces, lexeme.text, behind.pieces, flaw⟩,
    ⟨stop + (Trivia.flatten behind.pieces).size, behind.rest⟩)

/-! ## Nothing is lost -/

theorem Lexeme.read_append [Alphabet] (mode : Mode) (cs : Text) :
    (Lexeme.read mode cs).text ++ (Lexeme.read mode cs).rest = cs := by
  cases mode with
  | xmlContent => exact Markup.content_append cs
  | xmlTag => exact Markup.tag_append cs
  | operator => exact Code.lexeme_append .operator cs
  | exprStart => exact Code.lexeme_append .exprStart cs
  | typeArgs => exact Code.lexeme_append .typeArgs cs

theorem Mode.leading_append (mode : Mode) (cs : Text) :
    Trivia.flatten (mode.leading cs).pieces ++ (mode.leading cs).rest = cs := by
  unfold Mode.leading
  split
  · rfl
  · exact Trivia.run_append Trivia.leading?_append _ _ cs

theorem Mode.trailing_append (mode : Mode) (kind : Kind) (cs : Text) :
    Trivia.flatten (mode.trailing kind cs).pieces ++ (mode.trailing kind cs).rest = cs := by
  unfold Mode.trailing
  split
  · exact Trivia.run_append Trivia.trailing?_append _ _ cs
  · rfl

/-- **Reading loses nothing**: a token with its pieces and what is left behind it make up the text
at the place. -/
theorem Place.next_append [Alphabet] (place : Place) (mode : Mode) :
    (place.next mode).1.source ++ (place.next mode).2.rest = place.rest := by
  have hbefore := mode.leading_append place.rest
  have hread := Lexeme.read_append mode (mode.leading place.rest).rest
  have hbehind := mode.trailing_append (Lexeme.read mode (mode.leading place.rest).rest).kind
    (Lexeme.read mode (mode.leading place.rest).rest).rest
  simp only [Place.next, Token.source, List.append_assoc, hbehind, hread, hbefore]

/-- A reading moves on by the size of what it reads. -/
theorem Place.next_offset [Alphabet] (place : Place) (mode : Mode) :
    (place.next mode).2.offset = place.offset + (place.next mode).1.source.size := by
  simp only [Place.next, Token.source, Text.size_append]
  omega

/-- A reader over a text. -/
structure Lexer where
  text : Text
  place : Place

namespace Lexer

/-- A reader at an offset; there is none past the end or inside a character. -/
def of? (text : Text) (offset : Nat) : Option Lexer :=
  (Place.of? text offset).map fun p => ⟨text, p⟩

/-- Reads one token. -/
def next [Alphabet] (l : Lexer) (mode : Mode) : Token × Lexer :=
  let (token, place) := l.place.next mode
  (token, { l with place })

/-- Moves to an offset. -/
def reset? (l : Lexer) (offset : Nat) : Option Lexer := of? l.text offset

/-- Moves back to where a token began, its leading pieces included. -/
def rewind? (l : Lexer) (token : Token) : Option Lexer := l.reset? token.start

/-- Reads token after token up to the end of the text, in one mode each; the last mode serves for
all further tokens.  `limit` bounds their number. -/
def tokens [Alphabet] : (limit : Nat) → Place → Mode → List Mode → List Token
  | 0, _, _, _ => []
  | limit + 1, place, mode, modes =>
    let (token, place) := place.next mode
    if token.kind == .eof then [token]
    else
      match modes with
      | [] => token :: tokens limit place mode []
      | mode :: modes => token :: tokens limit place mode modes

/-- All tokens of a text.  Each but the last has at least one character. -/
def all [Alphabet] (text : Text) (mode : Mode) (modes : List Mode) : List Token :=
  tokens (text.length + 1) (.start text) mode modes

end Lexer

end ActionScript
