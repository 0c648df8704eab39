import ActionScript.Token.Number
import ActionScript.Token.Quotation
import ActionScript.Token.Pattern

/-!
# Tokens of code

The token at the head of a text in one of the code modes.  Operators are read as far as they go;
the mode only decides on `/`, `<`, `>` and `-`.
-/

set_option autoImplicit false

namespace ActionScript.Code

/-- An operator character on its own, and its longer readings: what has to follow, longest first. -/
structure Family where
  single : Kind
  longer : List (Text × Kind) := []

/-- The operators that start with `c`, in the mode after an operand. -/
def family? (c : Char) : Option Family :=
  match c with
  | '(' => some ⟨.lParen, []⟩
  | ')' => some ⟨.rParen, []⟩
  | '[' => some ⟨.lBrack, []⟩
  | ']' => some ⟨.rBrack, []⟩
  | '{' => some ⟨.lCurly, []⟩
  | '}' => some ⟨.rCurly, []⟩
  | ';' => some ⟨.semicolon, []⟩
  | ',' => some ⟨.comma, []⟩
  | '~' => some ⟨.tilde, []⟩
  | '?' => some ⟨.question, []⟩
  | '.' => some ⟨.dot, [(['.', '.'], .dot3), (['.'], .dot2), (['<'], .dotLt)]⟩
  | ':' => some ⟨.colon, [([':'], .colon2)]⟩
  | '=' => some ⟨.eq, [(['=', '='], .eq3), (['='], .eq2)]⟩
  | '!' => some ⟨.bang, [(['=', '='], .neq2), (['='], .neq)]⟩
  | '<' => some ⟨.lt, [(['<', '='], .shlEq), (['<'], .shl), (['='], .lteq)]⟩
  | '>' => some ⟨.gt, [(['>', '>', '='], .ushrEq), (['>', '>'], .ushr), (['>', '='], .shrEq),
      (['>'], .shr), (['='], .gteq)]⟩
  | '+' => some ⟨.plus, [(['+'], .plus2), (['='], .plusEq)]⟩
  | '-' => some ⟨.minus, [(['-'], .minus2), (['='], .minusEq)]⟩
  | '*' => some ⟨.star, [(['='], .starEq)]⟩
  | '/' => some ⟨.slash, [(['='], .slashEq)]⟩
  | '%' => some ⟨.percent, [(['='], .percentEq)]⟩
  | '&' => some ⟨.amp, [(['&', '='], .amp2Eq), (['&'], .amp2), (['='], .ampEq)]⟩
  | '|' => some ⟨.pipe, [(['|', '='], .pipe2Eq), (['|'], .pipe2), (['='], .pipeEq)]⟩
  | '^' => some ⟨.caret, [(['='], .caretEq)]⟩
  | _ => none

/-- The family of `c` in a given mode: `<` stands alone before an operand, `>` inside type
arguments. -/
def familyIn? (mode : Mode) (c : Char) : Option Family :=
  if mode == .exprStart && c == '<' then some ⟨.lt, []⟩
  else if mode == .typeArgs && c == '>' then some ⟨.gt, []⟩
  else family? c

/-- The operator that `c` opens in front of `cs`. -/
def operator (f : Family) (c : Char) (cs : Text) : Lexeme :=
  match f.longer.find? fun (more, _) => more.isPrefixOf cs with
  | some (more, kind) => ⟨kind, c :: more, cs.drop more.length, none⟩
  | none => ⟨f.single, [c], cs, none⟩

/-- The words that are numbers. -/
def infinityWord : Text := ['I', 'n', 'f', 'i', 'n', 'i', 't', 'y']

/-- The other word that is a number. -/
def nanWord : Text := ['N', 'a', 'N']

/-- The word that `c` opens in front of `cs`. -/
def word [Alphabet] (c : Char) (cs : Text) : Lexeme :=
  let text := c :: cs.takeWhile isIdentContinue
  ⟨if text == nanWord || text == infinityWord then .number else .name, text,
    cs.dropWhile isIdentContinue, none⟩

/-- Does `cs` start with the whole word `Infinity`? -/
def atInfinity [Alphabet] (cs : Text) : Bool :=
  infinityWord.isPrefixOf cs && !(cs.drop infinityWord.length).head?.any isIdentContinue

/-- The token at the head of a text. -/
def lexeme [Alphabet] (mode : Mode) : Text → Lexeme
  | [] => ⟨.eof, [], [], none⟩
  | c :: cs =>
    if c.isDigit || (c == '.' && Number.startsWithDigit cs) then Number.lexeme (c :: cs)
    else if c == '"' || c == '\'' then Quotation.lexeme c cs
    else if mode == .exprStart && c == '/' then Pattern.lexeme cs
    else if mode == .exprStart && c == '-' && atInfinity cs then
      ⟨.number, c :: infinityWord, cs.drop infinityWord.length, none⟩
    else
      match familyIn? mode c with
      | some f => operator f c cs
      | none =>
        if isIdentStart c then word c cs
        else .faulty (.unexpectedCharacter c) .unknown [c] cs

/-! ## Nothing is lost -/

theorem operator_append (f : Family) (c : Char) (cs : Text) :
    (operator f c cs).text ++ (operator f c cs).rest = c :: cs := by
  unfold operator
  split
  · rename_i more kind h
    have hprefix := List.find?_some h
    exact congrArg (c :: ·) (Text.append_drop_of_isPrefixOf hprefix)
  · rfl

theorem word_append [Alphabet] (c : Char) (cs : Text) :
    (word c cs).text ++ (word c cs).rest = c :: cs :=
  congrArg (c :: ·) List.takeWhile_append_dropWhile

/-- **A token of code and the rest make up the text.** -/
theorem lexeme_append [Alphabet] (mode : Mode) (cs : Text) :
    (lexeme mode cs).text ++ (lexeme mode cs).rest = cs := by
  cases cs with
  | nil => rfl
  | cons c cs =>
    rw [lexeme]
    split
    · exact Number.scan_append (c :: cs)
    · split
      · exact Quotation.lexeme_append c cs
      · split
        · rename_i h
          simp only [Bool.and_eq_true, beq_iff_eq] at h
          rw [h.2]
          exact Pattern.lexeme_append cs
        · split
          · rename_i h
            simp only [Bool.and_eq_true, atInfinity] at h
            exact congrArg (c :: ·) (Text.append_drop_of_isPrefixOf h.2.1)
          · split
            · exact operator_append _ c cs
            · split
              · exact word_append c cs
              · rfl

end ActionScript.Code
