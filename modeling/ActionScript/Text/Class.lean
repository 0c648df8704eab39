import ActionScript.Text.Boundary

/-!
# Character classes

What separates tokens and what names are made of.  Line breaks end a line comment and a string and
may stand for a semicolon; blanks only separate.

A name is made of letters, of marks that go on with them, and of a few signs.  Which characters are
letters and marks depends on the version of Unicode: an `Alphabet` says it, and what is the same in
all versions.
-/

set_option autoImplicit false

namespace ActionScript

/-- Line feed, carriage return and the two Unicode separators. -/
def isLineBreak (c : Char) : Bool :=
  c == '\n' || c == '\r' || c == '\u2028' || c == '\u2029'

/-- Boundaries of Unicode's `White_Space`. -/
def whiteSpaceBoundaries : List Nat :=
  [0x9, 0xe, 0x20, 0x21, 0x85, 0x86, 0xa0, 0xa1, 0x1680, 0x1681, 0x2000, 0x200b, 0x2028, 0x202a,
   0x202f, 0x2030, 0x205f, 0x2060, 0x3000, 0x3001]

/-- White space that breaks no line, and the byte order mark. -/
def isBlank (c : Char) : Bool :=
  (within whiteSpaceBoundaries c.toNat && !isLineBreak c) || c == '\ufeff'

/-- No line break is blank. -/
theorem isBlank_eq_false_of_isLineBreak {c : Char} (h : isLineBreak c = true) :
    isBlank c = false := by
  simp only [isLineBreak, Bool.or_eq_true, beq_iff_eq] at h
  rcases h with ((rfl | rfl) | rfl) | rfl <;> decide

/-- Hexadecimal digits, of either case. -/
def isHexDigit (c : Char) : Bool :=
  c.isDigit || ('a' ≤ c && c ≤ 'f') || ('A' ≤ c && c ≤ 'F')

/-- Octal digits. -/
def isOctalDigit (c : Char) : Bool := '0' ≤ c && c ≤ '7'

/-! ## Names -/

/-- The letters of names, and the marks that may go on with them. -/
class Alphabet where
  /-- Unicode's `XID_Start`. -/
  isLetter : Char → Bool
  /-- Unicode's `XID_Continue`. -/
  isLetterOrMark : Char → Bool
  isLetterOrMark_of_isLetter : ∀ {c : Char}, isLetter c = true → isLetterOrMark c = true
  isLetter_ascii : ∀ {c : Char}, c.toNat < 128 → isLetter c = c.isAlpha
  isLetterOrMark_ascii : ∀ {c : Char}, c.toNat < 128 →
    isLetterOrMark c = (c.isAlphanum || c == '_')
  isLetterOrMark_space : ∀ {c : Char}, isBlank c = true ∨ isLineBreak c = true →
    isLetterOrMark c = false

export Alphabet (isLetter isLetterOrMark)

/-- Signs that count as letters of a name. -/
def isNameSign (c : Char) : Bool := c == '$' || c == '#' || c == '§' || c == '@'

variable [Alphabet] {c : Char}

/-- Characters that may open a name. -/
def isIdentStart (c : Char) : Bool := isLetter c || c == '_' || isNameSign c

/-- Characters that may go on in a name. -/
def isIdentContinue (c : Char) : Bool := isLetterOrMark c || isNameSign c

/-- Characters that may open the name of a tag or an attribute. -/
def isTagStart (c : Char) : Bool := isLetter c || c == '_' || c == ':'

/-- Characters that may go on in the name of a tag or an attribute. -/
def isTagContinue (c : Char) : Bool := isLetterOrMark c || c == '-' || c == '.' || c == ':'

/-- What may not go on in a name may not open one. -/
theorem isLetter_eq_false (h : isLetterOrMark c = false) : isLetter c = false :=
  Bool.eq_false_iff.2 fun hc => by
    rw [Alphabet.isLetterOrMark_of_isLetter hc] at h
    cases h

theorem isIdentStart_ascii (h : c.toNat < 128) :
    isIdentStart c = (c.isAlpha || c == '_' || isNameSign c) := by
  rw [isIdentStart, Alphabet.isLetter_ascii h]

theorem isIdentContinue_ascii (h : c.toNat < 128) :
    isIdentContinue c = (c.isAlphanum || c == '_' || isNameSign c) := by
  rw [isIdentContinue, Alphabet.isLetterOrMark_ascii h]

theorem isTagStart_ascii (h : c.toNat < 128) :
    isTagStart c = (c.isAlpha || c == '_' || c == ':') := by
  rw [isTagStart, Alphabet.isLetter_ascii h]

theorem isTagContinue_ascii (h : c.toNat < 128) :
    isTagContinue c = (c.isAlphanum || c == '_' || c == '-' || c == '.' || c == ':') := by
  rw [isTagContinue, Alphabet.isLetterOrMark_ascii h]

end ActionScript
