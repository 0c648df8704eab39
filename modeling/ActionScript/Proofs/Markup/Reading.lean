import ActionScript.Proofs.Markup.Syntax
import ActionScript.Proofs.Printing.Reading

/-!
# Reading printed markup

Inside a tag a name ends where a sign, a space or the end of the tag follows, and a value ends at
its quote.  Between tags text ends at the next `<`, and an enclosed piece ends at its closing mark,
which does not occur before.  None of these tokens has trivia behind it.

* `Markup.tag_name`, `Markup.tag_quoted`, `Markup.content_text`, `Markup.content_enclosed`:
  **printed markup is cut into the tokens that were printed.**
* `Mode.reads_tag`, `Mode.reads_tag_gap`, `Mode.reads_content`: what is cut from a text is read
  there.
-/

set_option autoImplicit false

namespace ActionScript

open Trivia

namespace Markup

/-! ## Inside tags -/

/-- A text where a name in a tag ends. -/
def EndsName [Alphabet] (cs : Text) : Prop := cs.head?.any isTagContinue = false

theorem takeWhile_endsName [Alphabet] {others more : Text}
    (hothers : others.all isTagContinue = true)
    (hmore : EndsName more) :
    (others ++ more).takeWhile isTagContinue = others ∧
      (others ++ more).dropWhile isTagContinue = more := by
  have hall := List.all_eq_true.1 hothers
  rw [List.takeWhile_append_of_pos hall, List.dropWhile_append_of_pos hall]
  cases more with
  | nil => simp
  | cons c cs =>
    have hc : isTagContinue c = false := by simpa [EndsName] using hmore
    simp [hc]

/-- A token inside a tag, by the character that opens it. -/
theorem tag_cons [Alphabet] (c : Char) (cs : Text) : tag (c :: cs) =
    if c = '/' ∧ cs.head? = some '>' then ⟨.slashGt, ['/', '>'], cs.tail, none⟩
    else if c = '<' ∧ cs.head? = some '/' then ⟨.ltSlash, ['<', '/'], cs.tail, none⟩
    else if c == '>' then ⟨.gt, [c], cs, none⟩
    else if c == '<' then ⟨.lt, [c], cs, none⟩
    else if c == '=' then ⟨.eq, [c], cs, none⟩
    else if c == '{' then ⟨.lCurly, [c], cs, none⟩
    else if c == '}' then ⟨.rCurly, [c], cs, none⟩
    else if c == '"' || c == '\'' then value c cs
    else if isTagStart c then
      ⟨.name, c :: cs.takeWhile isTagContinue, cs.dropWhile isTagContinue, none⟩
    else .faulty (.unexpectedCharacter c) .unknown [c] cs := by
  unfold tag
  split
  · rename_i heq
    cases heq
  · rename_i heq
    cases heq
    rfl
  · rename_i heq
    cases heq
    rfl
  · rename_i hclose hopen heq
    cases heq
    have hclose' : ¬(c = '/' ∧ cs.head? = some '>') := by
      rintro ⟨rfl, hhead⟩
      obtain ⟨rest, rfl⟩ := List.head?_eq_some_iff.1 hhead
      exact hclose rest rfl rfl
    have hopen' : ¬(c = '<' ∧ cs.head? = some '/') := by
      rintro ⟨rfl, hhead⟩
      obtain ⟨rest, rfl⟩ := List.head?_eq_some_iff.1 hhead
      exact hopen rest rfl rfl
    rw [if_neg hclose', if_neg hopen']

/-- **A printed name is a token.** -/
theorem tag_name [Alphabet] (n : TagName) {more : Text} (hmore : EndsName more) :
    tag (n.text ++ more) = ⟨.name, n.text, more, none⟩ := by
  have hne : ∀ d ∈ ['/', '>', '<', '=', '{', '}', '"', '\''], n.first ≠ d :=
    ne_of_any_eq_false n.isStart (any_eq_false_ascii isTagStart_ascii (by decide))
  obtain ⟨htake, hdrop⟩ := takeWhile_endsName n.isContinued hmore
  rw [TagName.text, List.cons_append, tag_cons]
  simp [hne, n.isStart, htake, hdrop]

/-- **A printed value is a token.** -/
theorem tag_quoted [Alphabet] (a : XmlAttribute) (more : Text) :
    tag (a.quoted ++ more) = ⟨.string, a.quoted, more, none⟩ := by
  have hfree : ∀ c ∈ a.value, (c != a.quote) = true := by
    intro c hc
    rw [bne_iff_ne]
    rintro rfl
    exact a.isFree hc
  have hvalue : value a.quote (a.value ++ a.quote :: more) = ⟨.string, a.quoted, more, none⟩ := by
    unfold value
    rw [List.dropWhile_append_of_pos hfree, List.takeWhile_append_of_pos hfree]
    simp [XmlAttribute.quoted]
  have hquoted : a.quoted ++ more = a.quote :: (a.value ++ a.quote :: more) := by
    simp [XmlAttribute.quoted]
  rw [hquoted]
  rcases a.isQuote with hquote | hquote
  · rw [hquote] at hvalue ⊢
    exact hvalue
  · rw [hquote] at hvalue ⊢
    exact hvalue

/-! ## Between tags -/

/-- What does not begin with `<` begins with no enclosed piece. -/
theorem find?_enclosures {c : Char} (hc : c ≠ '<') (cs : Text) :
    (enclosures.find? fun e => e.opening.isPrefixOf (c :: cs)) = none := by
  simp [enclosures, List.isPrefixOf, Ne.symm hc]

/-- Text goes on up to the next tag or bracket. -/
theorem content_of_isContent {c : Char} (hc : isContent c = true) (cs : Text) : content (c :: cs) =
    ⟨.xmlText, (c :: cs).takeWhile isContent, (c :: cs).dropWhile isContent, none⟩ := by
  have hsigns : c ≠ '<' ∧ c ≠ '{' := by simpa [isContent] using hc
  rw [List.takeWhile_cons_of_pos hc, List.dropWhile_cons_of_pos hc]
  unfold content
  rw [find?_enclosures hsigns.1]
  simp [hsigns]

/-- **A printed text is a token**, up to the next tag. -/
theorem content_text (t : XmlText) {more : Text} (hmore : more.head?.any isContent = false) :
    content (t.text ++ more) = ⟨.xmlText, t.text, more, none⟩ := by
  have hall := List.all_eq_true.1 t.isContent
  obtain ⟨text, hne, _⟩ := t
  obtain ⟨c, cs, rfl⟩ := List.exists_cons_of_ne_nil hne
  rw [List.cons_append, content_of_isContent (hall c List.mem_cons_self), ← List.cons_append,
    List.takeWhile_append_of_pos hall, List.dropWhile_append_of_pos hall]
  cases more with
  | nil => simp
  | cons d ds =>
    have hd : isContent d = false := by simpa using hmore
    simp [hd]

/-- A mark does not begin inside a text that it does not occur in, even if it comes right behind.
Its last character occurs nowhere else in it. -/
theorem not_prefix_append {front : Text} {last : Char} (hlast : last ∉ front) {body : Text}
    (hne : body ≠ []) (hbody : ¬front ++ [last] <:+: body) (more : Text) :
    ¬front ++ [last] <+: body ++ (front ++ [last] ++ more) := by
  rintro ⟨behind, heq⟩
  rcases List.append_eq_append_iff.1 heq with ⟨excess, hover, -⟩ | ⟨excess, hover, hrest⟩
  · exact hbody ⟨[], excess, by rw [hover, List.nil_append]⟩
  · have hlt : excess.length < (front ++ [last]).length := by
      have hlength := congrArg List.length hover
      have hpos := List.length_pos_of_ne_nil hne
      have hboth : (body ++ excess).length = body.length + excess.length := List.length_append
      omega
    have hprefix : excess <+: front ++ [last] :=
      List.prefix_of_prefix_length_le ⟨behind, hrest.symm⟩ (List.prefix_append _ _)
        (Nat.le_of_lt hlt)
    rcases List.eq_nil_or_concat excess with rfl | ⟨init, c, rfl⟩
    · rw [hover, List.append_nil] at hbody
      exact hbody (List.infix_refl body)
    · rw [List.concat_eq_append] at hover hprefix hlt
      have hc : last = c := by simpa using congrArg List.getLast? hover
      have hfront : init ++ [c] <+: front := by
        rcases List.prefix_concat_iff.1 hprefix with heq | hfront
        · rw [heq] at hlt
          exact absurd hlt (Nat.lt_irrefl _)
        · exact hfront
      exact hlast (hc ▸ hfront.subset (List.mem_concat_self))

/-- **The first place where a mark ends** is behind the text that it closes. -/
theorem splitPast_body {front : Text} {last : Char} (hlast : last ∉ front) {body : Text}
    (hbody : ¬front ++ [last] <:+: body) (more : Text) :
    Text.splitPast (front ++ [last]) (body ++ (front ++ [last] ++ more)) =
      some (body ++ (front ++ [last]), more) := by
  induction body with
  | nil =>
    have hprefix : (front ++ [last]).isPrefixOf (front ++ [last] ++ more) = true :=
      List.isPrefixOf_iff_prefix.2 (List.prefix_append _ _)
    obtain ⟨c, cs, hcs⟩ := List.exists_cons_of_ne_nil
      (show front ++ [last] ++ more ≠ [] by simp)
    have hdrop : (front ++ [last] ++ more).drop (front ++ [last]).length = more := by simp
    rw [List.nil_append, List.nil_append]
    rw [hcs] at hprefix hdrop ⊢
    rw [Text.splitPast, if_pos hprefix, hdrop]
  | cons c body ih =>
    have hnot : ¬(front ++ [last]).isPrefixOf (c :: body ++ (front ++ [last] ++ more)) = true := by
      rw [List.isPrefixOf_iff_prefix]
      exact not_prefix_append hlast (List.cons_ne_nil _ _) hbody more
    rw [List.cons_append] at hnot ⊢
    rw [Text.splitPast, if_neg hnot, ih fun h => hbody (h.trans (List.suffix_cons _ _).isInfix)]
    rfl

/-- The closing mark of an enclosed piece ends with a character that it holds only once. -/
theorem closing_cases {e : Enclosure} (h : e ∈ enclosures) :
    ∃ front last, e.closing = front ++ [last] ∧ last ∉ front := by
  simp only [enclosures, List.mem_cons, List.not_mem_nil, or_false] at h
  rcases h with rfl | rfl | rfl
  · exact ⟨['-', '-'], '>', rfl, by decide⟩
  · exact ⟨[']', ']'], '>', rfl, by decide⟩
  · exact ⟨['?'], '>', rfl, by decide⟩

/-- No opening mark begins with another one. -/
theorem find?_opening {e : Enclosure} (h : e ∈ enclosures) (cs : Text) :
    (enclosures.find? fun f => f.opening.isPrefixOf (e.opening ++ cs)) = some e := by
  simp only [enclosures, List.mem_cons, List.not_mem_nil, or_false] at h
  rcases h with rfl | rfl | rfl <;> rfl

/-- **A printed comment is a token**, and so are character data and processing instructions. -/
theorem content_enclosed (m : XmlEnclosed) (more : Text) :
    content (m.text ++ more) = ⟨m.enclosure.kind, m.text, more, none⟩ := by
  obtain ⟨front, last, hclosing, hlast⟩ := closing_cases m.isKnown
  have hfree := m.isFree
  have hsource :
      m.text ++ more = m.enclosure.opening ++ (m.body ++ (m.enclosure.closing ++ more)) := by
    simp [XmlEnclosed.text]
  have hsplit : Text.splitPast m.enclosure.closing (m.body ++ (m.enclosure.closing ++ more)) =
      some (m.body ++ m.enclosure.closing, more) := by
    rw [hclosing] at hfree ⊢
    exact splitPast_body hlast hfree more
  rw [hsource]
  unfold content
  rw [find?_opening m.isKnown]
  simp [enclosed, hsplit, XmlEnclosed.text]

/-- Where no enclosed markup begins, a tag does. -/
theorem content_less {cs : Text}
    (h : (enclosures.find? fun e => e.opening.isPrefixOf ('<' :: cs)) = none) :
    content ('<' :: cs) = if cs.head? = some '/' then ⟨.ltSlash, ['<', '/'], cs.tail, none⟩
      else ⟨.lt, ['<'], cs, none⟩ := by
  unfold content
  rw [h]
  cases cs with
  | nil => rfl
  | cons d ds =>
    by_cases hd : d = '/'
    · rw [hd]
      rfl
    · simp [hd]

/-- A tag opens between tags where no other markup does. -/
theorem content_lt {c : Char} (hc : c ∉ ['!', '?', '/']) (more : Text) :
    content ('<' :: c :: more) = ⟨.lt, ['<'], c :: more, none⟩ := by
  simp only [List.mem_cons, List.not_mem_nil, or_false, not_or] at hc
  obtain ⟨hbang, hquestion, hslash⟩ := hc
  have hnone : (enclosures.find? fun e => e.opening.isPrefixOf ('<' :: c :: more)) = none := by
    simp [enclosures, List.isPrefixOf, Ne.symm hbang, Ne.symm hquestion]
  rw [content_less hnone, if_neg (by simpa using hslash)]

end Markup

/-! ## Readings -/

section
variable {cs text more : Text} {kind : Kind}

/-- A token that is cut from a text between tags is read there. -/
theorem Mode.reads_content [Alphabet] (h : Markup.content cs = ⟨kind, text, more, none⟩) :
    Mode.xmlContent.Reads cs kind text [] more := by
  rintro p rfl
  have hleading : Mode.xmlContent.leading p.rest = ⟨[], p.rest, none⟩ := rfl
  have hread : Lexeme.read .xmlContent p.rest = ⟨kind, text, more, none⟩ := h
  have htrailing : Mode.xmlContent.trailing kind more = ⟨[], more, none⟩ := rfl
  simp [Place.next, hleading, hread, htrailing]

/-- A token that is cut from a text in a tag is read behind what is skipped in front of it. -/
theorem Mode.reads_tag_behind [Alphabet] (lead : List Trivia)
    (hlead : Trivia.leadingRun false (flatten lead ++ cs) = ⟨lead, cs, none⟩)
    (h : Markup.tag cs = ⟨kind, text, more, none⟩) :
    Mode.xmlTag.ReadsBehind lead (flatten lead ++ cs) kind text [] more := by
  rintro ⟨offset, rest⟩ rfl
  have hleading : Mode.xmlTag.leading (flatten lead ++ cs) = ⟨lead, cs, none⟩ := hlead
  have hread : Lexeme.read .xmlTag cs = ⟨kind, text, more, none⟩ := h
  have htrailing : Mode.xmlTag.trailing kind more = ⟨[], more, none⟩ := rfl
  simp [Place.next, hleading, hread, htrailing]

/-- A character in a tag that is skipped neither as a blank nor as the end of a line. -/
def isTagSolid (c : Char) : Bool := !isBlank c && !isLineBreak c

theorem Trivia.leading?_of_isTagSolid {c : Char} (hc : isTagSolid c = true) (cs : Text) :
    leading? false (c :: cs) = none := by
  rw [isTagSolid, Bool.and_eq_true, Bool.not_eq_true', Bool.not_eq_true'] at hc
  obtain ⟨hblank, hbreak⟩ := hc
  have hreturn : c ≠ '\r' := by
    rintro rfl
    cases hbreak
  have hlineBreak : lineBreak? (c :: cs) = none := by
    unfold lineBreak?
    split
    · rename_i heq
      exact absurd (List.cons.inj heq).1 hreturn
    · rename_i heq
      cases heq
      simp [hbreak]
    · rfl
  simp [leading?, hlineBreak, blanks?, hblank]

variable [Alphabet]

/-- In a tag a token is read where it begins. -/
theorem Mode.reads_tag {c : Char} (hc : isTagSolid c = true)
    (h : Markup.tag (c :: cs) = ⟨kind, text, more, none⟩) :
    Mode.xmlTag.Reads (c :: cs) kind text [] more :=
  reads_tag_behind [] (run_eq_nil (leading?_of_isTagSolid hc cs) _ _) h

/-- In a tag a token is read behind a space. -/
theorem Mode.reads_tag_gap {c : Char} (hc : isTagSolid c = true)
    (h : Markup.tag (c :: cs) = ⟨kind, text, more, none⟩) :
    Mode.xmlTag.ReadsBehind gap (' ' :: c :: cs) kind text [] more := by
  refine reads_tag_behind gap ?_ h
  have hblank : isBlank c = false := by
    rw [isTagSolid, Bool.and_eq_true, Bool.not_eq_true'] at hc
    exact hc.1
  have hspace : leading? false (' ' :: c :: cs) = some ⟨⟨.whitespace, [' ']⟩, c :: cs, true⟩ := by
    have hfirst : isBlank ' ' = true := by decide
    simp [leading?, lineBreak?, isLineBreak, blanks?, hfirst, hblank]
  change leadingRun false (' ' :: c :: cs) = _
  simp only [leadingRun, List.length_cons, run, hspace, leading?_of_isTagSolid hc]
  rfl

/-- What opens a name in a tag is solid. -/
theorem isTagSolid_of_isTagStart {c : Char} (h : isTagStart c = true) : isTagSolid c = true := by
  rw [isTagStart, Bool.or_eq_true, Bool.or_eq_true, beq_iff_eq, beq_iff_eq] at h
  rcases h with (hletter | rfl) | rfl
  · have hmark : isLetterOrMark c = true := Alphabet.isLetterOrMark_of_isLetter hletter
    have hspace : ¬(isBlank c = true ∨ isLineBreak c = true) := fun hc => by
      rw [Alphabet.isLetterOrMark_space hc] at hmark
      cases hmark
    simpa [isTagSolid] using hspace
  · decide
  · decide

end

end ActionScript
