import ActionScript.Token.Basic

/-!
# Tokens of markup

Inside tags there are names, quoted values and a few signs; between tags there is text up to the
next `<` or `{`, and three sorts of enclosed markup.
-/

set_option autoImplicit false

namespace ActionScript.Markup

/-- A quoted value.  Without a closing quote only the opening one is taken. -/
def value (quote : Char) (cs : Text) : Lexeme :=
  match cs.dropWhile (· != quote) with
  | _ :: rest => ⟨.string, quote :: cs.takeWhile (· != quote) ++ [quote], rest, none⟩
  | [] => .faulty .unterminatedString .unknown [quote] cs

/-- The token at the head of a text inside a tag. -/
def tag [Alphabet] : Text → Lexeme
  | [] => ⟨.eof, [], [], none⟩
  | '/' :: '>' :: cs => ⟨.slashGt, ['/', '>'], cs, none⟩
  | '<' :: '/' :: cs => ⟨.ltSlash, ['<', '/'], cs, none⟩
  | c :: cs =>
    if c == '>' then ⟨.gt, [c], cs, none⟩
    else if c == '<' then ⟨.lt, [c], cs, none⟩
    else if c == '=' then ⟨.eq, [c], cs, none⟩
    else if c == '{' then ⟨.lCurly, [c], cs, none⟩
    else if c == '}' then ⟨.rCurly, [c], cs, none⟩
    else if c == '"' || c == '\'' then value c cs
    else if isTagStart c then
      ⟨.name, c :: cs.takeWhile isTagContinue, cs.dropWhile isTagContinue, none⟩
    else .faulty (.unexpectedCharacter c) .unknown [c] cs

/-- Markup between an opening and a closing mark; it may run into the end of the text. -/
structure Enclosure where
  opening : Text
  closing : Text
  kind : Kind

/-- Comments, character data and processing instructions. -/
def enclosures : List Enclosure :=
  [⟨['<', '!', '-', '-'], ['-', '-', '>'], .xmlComment⟩,
   ⟨['<', '!', '[', 'C', 'D', 'A', 'T', 'A', '['], [']', ']', '>'], .xmlCdata⟩,
   ⟨['<', '?'], ['?', '>'], .xmlPi⟩]

/-- The enclosure at the head of a text that starts with its opening mark. -/
def enclosed (e : Enclosure) (cs : Text) : Lexeme :=
  match Text.splitPast e.closing (cs.drop e.opening.length) with
  | some (read, rest) => ⟨e.kind, e.opening ++ read, rest, none⟩
  | none => .faulty .unterminatedXml e.kind cs []

/-- Is `c` text between tags? -/
def isContent (c : Char) : Bool := c != '<' && c != '{'

/-- The token at the head of a text between tags. -/
def content (cs : Text) : Lexeme :=
  match enclosures.find? fun e => e.opening.isPrefixOf cs with
  | some e => enclosed e cs
  | none =>
    match cs with
    | [] => ⟨.eof, [], [], none⟩
    | '<' :: '/' :: cs => ⟨.ltSlash, ['<', '/'], cs, none⟩
    | c :: cs =>
      if c == '<' then ⟨.lt, [c], cs, none⟩
      else if c == '{' then ⟨.lCurly, [c], cs, none⟩
      else ⟨.xmlText, c :: cs.takeWhile isContent, cs.dropWhile isContent, none⟩

/-! ## Nothing is lost -/

theorem value_append (quote : Char) (cs : Text) :
    (value quote cs).text ++ (value quote cs).rest = quote :: cs := by
  have key : cs.takeWhile (· != quote) ++ cs.dropWhile (· != quote) = cs :=
    List.takeWhile_append_dropWhile
  unfold value
  split
  · rename_i c rest h
    have hc : c = quote := by
      have hne : cs.dropWhile (· != quote) ≠ [] := by simp [h]
      have := List.head_dropWhile_not (· != quote) hne
      simpa [h] using this
    rw [h, hc] at key
    simp only [List.cons_append, List.append_assoc]
    exact congrArg (quote :: ·) key
  · rfl

/-- **A token inside a tag and the rest make up the text.** -/
theorem tag_append [Alphabet] (cs : Text) : (tag cs).text ++ (tag cs).rest = cs := by
  unfold tag
  split
  · rfl
  · rfl
  · rfl
  · rename_i c cs _ _
    split
    · rfl
    · split
      · rfl
      · split
        · rfl
        · split
          · rfl
          · split
            · rfl
            · split
              · exact value_append c cs
              · split
                · exact congrArg (c :: ·) List.takeWhile_append_dropWhile
                · rfl

theorem enclosed_append (e : Enclosure) {cs : Text} (h : e.opening.isPrefixOf cs = true) :
    (enclosed e cs).text ++ (enclosed e cs).rest = cs := by
  have key := Text.append_drop_of_isPrefixOf h
  unfold enclosed
  split
  · rename_i read rest hs
    rw [Text.splitPast_append hs] at key
    simpa using key
  · exact List.append_nil cs

/-- **A token between tags and the rest make up the text.** -/
theorem content_append (cs : Text) : (content cs).text ++ (content cs).rest = cs := by
  unfold content
  split
  · rename_i e he
    have hopening := List.find?_some he
    exact enclosed_append e hopening
  · split
    · rfl
    · rfl
    · rename_i c cs _ _
      split
      · rfl
      · split
        · rfl
        · exact congrArg (c :: ·) List.takeWhile_append_dropWhile

end ActionScript.Markup
