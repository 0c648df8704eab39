import ActionScript.Token.Basic

/-!
# String literals

A string literal is a sequence of units between quotes: plain characters and escapes.  It ends at
its quote; a line break or the end of the text leaves it open, unless a backslash stands before the
line break.
-/

set_option autoImplicit false

namespace ActionScript.Quotation

/-- A plain character or an escape, as written.  Malformed escapes are kept and marked. -/
structure Piece where
  text : Text
  valid : Bool := true
  deriving DecidableEq, Repr

/-- At most `count` characters of a class. -/
def atMost (count : Nat) (p : Char → Bool) (cs : Text) : Text := (cs.take count).takeWhile p

/-- An escape of `count` hexadecimal digits behind `lead`. -/
def hexEscape (lead : Text) (count : Nat) (cs : Text) : Piece × Text :=
  let ds := atMost count isHexDigit cs
  (⟨lead ++ ds, ds.length == count⟩, cs.drop ds.length)

/-- An escape of one to six hexadecimal digits between braces, behind the opening brace. -/
def bracedEscape (cs : Text) : Piece × Text :=
  let ds := cs.takeWhile isHexDigit
  let text := ['\\', 'u', '{'] ++ ds
  let rest := cs.dropWhile isHexDigit
  if 1 ≤ ds.length && ds.length ≤ 6 then
    match rest with
    | '}' :: rest => (⟨text ++ ['}'], true⟩, rest)
    | rest => (⟨text, false⟩, rest)
  else (⟨text, false⟩, rest)

/-- The escape behind a backslash. -/
def escape : Text → Piece × Text
  | [] => (⟨['\\'], true⟩, [])
  | 'x' :: cs => hexEscape ['\\', 'x'] 2 cs
  | 'u' :: '{' :: cs => bracedEscape cs
  | 'u' :: cs => hexEscape ['\\', 'u'] 4 cs
  | '\r' :: '\n' :: cs => (⟨['\\', '\r', '\n'], true⟩, cs)
  | c :: cs =>
    if isOctalDigit c then
      let ds := atMost 3 isOctalDigit (c :: cs)
      (⟨'\\' :: ds, true⟩, (c :: cs).drop ds.length)
    else (⟨['\\', c], true⟩, cs)

/-- The units of a literal behind its opening quote, and what follows them. -/
structure Body where
  pieces : List Piece
  rest : Text
  closed : Bool

/-- Reads up to `limit` units.  Each has at least one character. -/
def body (quote : Char) : (limit : Nat) → Text → Body
  | 0, cs => ⟨[], cs, false⟩
  | _ + 1, [] => ⟨[], [], false⟩
  | limit + 1, c :: cs =>
    if c == quote then ⟨[], cs, true⟩
    else if isLineBreak c then ⟨[], c :: cs, false⟩
    else if c == '\\' then
      let (piece, rest) := escape cs
      let more := body quote limit rest
      ⟨piece :: more.pieces, more.rest, more.closed⟩
    else
      let more := body quote limit cs
      ⟨⟨[c], true⟩ :: more.pieces, more.rest, more.closed⟩

/-- The first malformed escape, `offset` bytes behind the start of the literal. -/
def firstFlaw : (offset : Nat) → List Piece → Option Flaw
  | _, [] => none
  | offset, p :: ps =>
    let stop := offset + p.text.size
    if p.valid then firstFlaw stop ps else some ⟨.invalidEscape, ⟨offset, stop⟩⟩

/-- The literal that `quote` opens in front of `cs`. -/
def lexeme (quote : Char) (cs : Text) : Lexeme :=
  let b := body quote (cs.length + 1) cs
  let text := quote :: b.pieces.flatMap Piece.text
  if b.closed then ⟨.string, text ++ [quote], b.rest, firstFlaw quote.utf8Size b.pieces⟩
  else .faulty .unterminatedString .unknown text b.rest

/-! ## Nothing is lost -/

theorem hexEscape_append (lead : Text) (count : Nat) (cs : Text) :
    (hexEscape lead count cs).1.text ++ (hexEscape lead count cs).2 = lead ++ cs := by
  have key : (cs.take count).takeWhile isHexDigit ++
      cs.drop ((cs.take count).takeWhile isHexDigit).length = cs :=
    List.prefix_iff_eq_append.mp
      ((List.takeWhile_prefix isHexDigit).trans (List.take_prefix count cs))
  simp only [hexEscape, atMost, List.append_assoc, key]

theorem bracedEscape_append (cs : Text) :
    (bracedEscape cs).1.text ++ (bracedEscape cs).2 = '\\' :: 'u' :: '{' :: cs := by
  have key : cs.takeWhile isHexDigit ++ cs.dropWhile isHexDigit = cs :=
    List.takeWhile_append_dropWhile
  unfold bracedEscape
  dsimp only
  split
  · split
    · rename_i rest hrest
      rw [hrest] at key
      simp [key]
    · simp [key]
  · simp [key]

theorem escape_append (cs : Text) : (escape cs).1.text ++ (escape cs).2 = '\\' :: cs := by
  unfold escape
  split
  · rfl
  · exact hexEscape_append _ _ _
  · exact bracedEscape_append _
  · exact hexEscape_append _ _ _
  · rfl
  · rename_i c cs _ _ _ _
    split
    · have key : ((c :: cs).take 3).takeWhile isOctalDigit ++
          (c :: cs).drop (((c :: cs).take 3).takeWhile isOctalDigit).length = c :: cs :=
        List.prefix_iff_eq_append.mp
          ((List.takeWhile_prefix isOctalDigit).trans (List.take_prefix 3 (c :: cs)))
      simp only [atMost, List.cons_append, key]
    · rfl

/-- The units and the closing quote, if it is there, are cut from the head of the text. -/
theorem body_append (quote : Char) (limit : Nat) (cs : Text) :
    (body quote limit cs).pieces.flatMap Piece.text ++
      ((if (body quote limit cs).closed then [quote] else []) ++ (body quote limit cs).rest) =
      cs := by
  induction limit generalizing cs with
  | zero => simp [body]
  | succ limit ih =>
    cases cs with
    | nil => simp [body]
    | cons c cs =>
      unfold body
      split
      · rename_i h
        simp [eq_of_beq h]
      · split
        · simp
        · split
          · rename_i h
            have := escape_append cs
            simp only [List.flatMap_cons, List.append_assoc, ih, this, eq_of_beq h]
          · simp only [List.flatMap_cons, List.append_assoc, ih]
            rfl

/-- **A literal and the rest make up the text.** -/
theorem lexeme_append (quote : Char) (cs : Text) :
    (lexeme quote cs).text ++ (lexeme quote cs).rest = quote :: cs := by
  have key := body_append quote (cs.length + 1) cs
  unfold lexeme
  dsimp only
  split
  · rename_i h
    rw [if_pos h] at key
    simp only [List.append_assoc, List.cons_append]
    exact congrArg (quote :: ·) key
  · rename_i h
    rw [if_neg h] at key
    exact congrArg (quote :: ·) key

end ActionScript.Quotation
