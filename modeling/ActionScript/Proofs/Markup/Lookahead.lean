import ActionScript.Proofs.Markup.Elements
import ActionScript.Proofs.Printing.Lookahead

/-!
# A tag is told from the type of a vector

Where an operand is expected `<` opens an element or a vector literal.  To tell them apart the
parser looks ahead through tokens of code: names, dots and brackets make up a type, and `>[` closes
it.  In a tag these tokens come to an end at an equals sign, a slash, or a `>` that `<` or a brace
follows.

* `Text.InTag`: the text up to the first of these signs is part of a tag.
* `Text.InTag.next`: **a token of a type leaves a text in the tag**, and a `>` ends it.
* `Setting.goes_opensVector`: no vector is found at a tag.
-/

set_option autoImplicit false

namespace ActionScript

open ActionScript.Parser ActionScript.Grammar Trivia

/-! ## Inside a tag -/

/-- Is the character no sign of a tag? -/
def isTagFiller (c : Char) : Bool := !(['=', '/', '>', '<'].contains c)

/-- The signs of a tag, each with what may follow it: a value behind an equals sign, the end of the
tag behind a slash, and other markup or an interpolation behind `>`. -/
def tagSigns : List (Char × Char) := [('=', '"'), ('=', '\''), ('/', '>'), ('>', '<'), ('>', '{')]

/-- The first sign of a tag is followed by what belongs to it. -/
def Text.InTag (cs : Text) : Prop :=
  ∃ c d more, cs.dropWhile isTagFiller = c :: d :: more ∧ (c, d) ∈ tagSigns

namespace Text

variable {cs ds : Text} {c : Char}

/-- What is no sign can be left out. -/
theorem inTag_append (ds : Text) (h : ds.all isTagFiller = true) : (ds ++ cs).InTag ↔ cs.InTag := by
  rw [InTag, InTag, List.dropWhile_append_of_pos (List.all_eq_true.1 h)]

theorem inTag_cons (h : isTagFiller c = true) : InTag (c :: cs) ↔ cs.InTag :=
  inTag_append [c] (by simpa using h)

/-- A sign at the head of a text is followed by what belongs to it. -/
theorem InTag.of_sign (h : InTag (c :: cs)) (hc : isTagFiller c = false) :
    ∃ d more, cs = d :: more ∧ (c, d) ∈ tagSigns := by
  obtain ⟨c', d, more, hdrop, hmem⟩ := h
  rw [List.dropWhile_cons, hc] at hdrop
  cases hdrop
  exact ⟨d, more, rfl, hmem⟩

theorem InTag.ne_nil (h : cs.InTag) : cs ≠ [] := by
  rintro rfl
  obtain ⟨c, d, more, hdrop, -⟩ := h
  cases hdrop

/-! ## Trivia inside a tag -/

/-- No comment begins in a tag. -/
theorem InTag.comment? (h : cs.InTag) : Trivia.comment? cs = none := by
  have hslash : isTagFiller '/' = false := by decide
  unfold Trivia.comment?
  split
  · obtain ⟨d, more, heq, hmem⟩ := h.of_sign hslash
    cases heq
    exact absurd hmem (by decide)
  · obtain ⟨d, more, heq, hmem⟩ := h.of_sign hslash
    cases heq
    exact absurd hmem (by decide)
  · rfl

/-- Characters of a class without the signs of a tag stand between the signs. -/
theorem isTagFiller_of_class {p : Char → Bool} (hp : ['=', '/', '>', '<'].any p = false)
    (h : p c = true) : isTagFiller c = true := by
  have hne : ∀ d ∈ ['=', '/', '>', '<'], c ≠ d := ne_of_any_eq_false h hp
  simp [isTagFiller, hne]

theorem isTagFiller_of_isBlank (h : isBlank c = true) : isTagFiller c = true :=
  isTagFiller_of_class (by decide) h

theorem isTagFiller_of_isLineBreak (h : isLineBreak c = true) : isTagFiller c = true :=
  isTagFiller_of_class (by decide) h

theorem InTag.blanks? (h : cs.InTag) {cut : Cut} (hcut : Trivia.blanks? cs = some cut) :
    cut.rest.InTag := by
  have hblank : (cs.takeWhile isBlank).all isTagFiller = true := List.all_eq_true.2 fun c hc =>
    isTagFiller_of_isBlank (List.all_eq_true.1 List.all_takeWhile c hc)
  unfold Trivia.blanks? at hcut
  split at hcut
  · cases hcut
  · cases hcut
    rw [← List.takeWhile_append_dropWhile (p := isBlank) (l := cs)] at h
    exact (inTag_append _ hblank).1 h

theorem InTag.lineBreak? (h : cs.InTag) {cut : Cut} (hcut : Trivia.lineBreak? cs = some cut) :
    cut.rest.InTag := by
  unfold Trivia.lineBreak? at hcut
  split at hcut
  · cases hcut
    exact (inTag_append ['\r', '\n'] (by decide)).1 h
  · split at hcut
    · rename_i hbreak
      cases hcut
      exact (inTag_cons (isTagFiller_of_isLineBreak hbreak)).1 h
    · cases hcut
  · cases hcut

theorem InTag.leading? (h : cs.InTag) {cut : Cut} (hcut : Trivia.leading? true cs = some cut) :
    cut.rest.InTag := by
  rw [Trivia.leading?, h.comment?] at hcut
  cases hbreak : Trivia.lineBreak? cs with
  | some found =>
    rw [hbreak] at hcut
    cases hcut
    exact h.lineBreak? hbreak
  | none =>
    rw [hbreak] at hcut
    exact h.blanks? hcut

theorem InTag.trailing? (h : cs.InTag) {cut : Cut} (hcut : Trivia.trailing? cs = some cut) :
    cut.rest.InTag := by
  rw [Trivia.trailing?, h.comment?] at hcut
  exact h.blanks? hcut

/-- **Trivia in a tag leaves a text in the tag.** -/
theorem InTag.run {next? : Text → Option Cut}
    (hnext : ∀ {cs : Text} {cut : Cut}, cs.InTag → next? cs = some cut → cut.rest.InTag)
    (h : cs.InTag) (limit offset : Nat) : (Trivia.run next? limit offset cs).rest.InTag := by
  induction limit generalizing offset cs with
  | zero => exact h
  | succ limit ih =>
    unfold Trivia.run
    cases hcut : next? cs with
    | none => exact h
    | some cut => exact ih (hnext h hcut) _

/-! ## Tokens inside a tag -/

/-- The kinds of tokens that the type of a vector goes on with. -/
def typeKinds : List Kind := [.name, .dot, .star, .colon2]

/-- What a token of a type leaves behind, and what is left behind a `>`. -/
structure LeavesTag (kind : Kind) (rest : Text) : Prop where
  inTag : kind ∈ typeKinds → rest.InTag
  opens : kind = .gt → ∃ c more, rest = c :: more ∧ c ∈ ['<', '{']
  single : kind ∉ [Kind.dotLt, .shr, .ushr]

variable [Alphabet]

/-- A token of code with a spelling begins with it. -/
theorem lexeme_spelled (mode : Mode) (hne : cs ≠ []) {w : String}
    (hw : (Code.lexeme mode cs).kind.spelling = some w) :
    w.toList ++ (Code.lexeme mode cs).rest = cs := by
  obtain ⟨c, ds, rfl⟩ := List.exists_cons_of_ne_nil hne
  rw [← (Code.lexeme_proper mode c ds).text_eq hw]
  exact Code.lexeme_append mode _

theorem isTagFiller_of_isIdentContinue (h : isIdentContinue c = true) : isTagFiller c = true :=
  isTagFiller_of_class (any_eq_false_ascii isIdentContinue_ascii (by decide)) h

theorem isTagFiller_of_isIdentStart (h : isIdentStart c = true) : isTagFiller c = true :=
  isTagFiller_of_class (any_eq_false_ascii isIdentStart_ascii (by decide)) h

/-- What a word leaves behind is in the tag. -/
theorem InTag.name (h : cs.InTag) (hk : (Code.lexeme .operator cs).kind = .name) :
    (Code.lexeme .operator cs).rest.InTag := by
  obtain ⟨c, ds, rfl, hstart, hword⟩ := Code.lexeme_name hk
  rw [hword]
  have hfill : (ds.takeWhile isIdentContinue).all isTagFiller = true :=
    List.all_eq_true.2 fun d hd =>
    isTagFiller_of_isIdentContinue (List.all_eq_true.1 List.all_takeWhile d hd)
  have hds := (inTag_cons (isTagFiller_of_isIdentStart hstart)).1 h
  rw [← List.takeWhile_append_dropWhile (p := isIdentContinue) (l := ds)] at hds
  exact (inTag_append _ hfill).1 hds

/-- A token that a type goes on with leaves a text in the tag. -/
theorem InTag.lexeme (h : cs.InTag) :
    LeavesTag (Code.lexeme .operator cs).kind (Code.lexeme .operator cs).rest := by
  have hspelled {w : String} (hw : (Code.lexeme .operator cs).kind.spelling = some w) :
      InTag (w.toList ++ (Code.lexeme .operator cs).rest) := by
    rw [lexeme_spelled .operator h.ne_nil hw]
    exact h
  have hname := h.name
  generalize Code.lexeme .operator cs = l at hspelled hname ⊢
  obtain ⟨kind, text, rest, flaw⟩ := l
  have hgt (more : Text) (hmore : InTag ('>' :: more)) :
      ∃ d behind, more = d :: behind ∧ d ∈ ['<', '{'] := by
    obtain ⟨d, behind, rfl, hmem⟩ := hmore.of_sign (by decide)
    exact ⟨d, behind, rfl, by simpa [tagSigns] using hmem⟩
  refine ⟨fun hk => ?_, fun hk => ?_, fun hk => ?_⟩
  · simp only [typeKinds, List.mem_cons, List.not_mem_nil, or_false] at hk
    rcases hk with rfl | rfl | rfl | rfl
    · exact hname rfl
    · exact (inTag_append ['.'] (by decide)).1 (hspelled rfl)
    · exact (inTag_append ['*'] (by decide)).1 (hspelled rfl)
    · exact (inTag_append [':', ':'] (by decide)).1 (hspelled rfl)
  · obtain rfl : kind = .gt := hk
    exact hgt rest (hspelled rfl)
  · simp only [List.mem_cons, List.not_mem_nil, or_false] at hk
    rcases hk with rfl | rfl | rfl
    · have htag : InTag ('<' :: rest) := (inTag_cons (c := '.') (by decide)).1 (hspelled rfl)
      obtain ⟨d, more, -, hmem⟩ := htag.of_sign (by decide)
      exact absurd hmem (by simp [tagSigns])
    all_goals
      obtain ⟨d, more, hmore, hmem⟩ := hgt _ (hspelled rfl)
      cases hmore
      exact absurd hmem (by decide)

omit [Alphabet] in
/-- No trivia stands where markup or an interpolation opens. -/
theorem solid_of_opening (hc : c ∈ ['<', '{']) (more : Text) : Solid (c :: more) := by
  simp only [List.mem_cons, List.not_mem_nil, or_false] at hc
  rcases hc with rfl | rfl <;> exact solid_cons (by decide) (by decide) (by decide) more

/-- **A token of a type leaves a text in the tag**, and a `>` ends it. -/
theorem InTag.next (h : cs.InTag) :
    LeavesTag cs.ahead ((Place.start cs).next .operator).2.rest := by
  have hleading : (Mode.operator.leading cs).rest.InTag :=
    h.run (fun hin hcut => hin.leading? hcut) _ _
  obtain ⟨hin, hopens, hsingle⟩ := hleading.lexeme
  have hbehind {kind : Kind} (hk : cs.ahead = kind) (hne : kind ≠ .eof) :
      ((Place.start cs).next .operator).2.rest =
        (trailingRun (Code.lexeme .operator (Mode.operator.leading cs).rest).rest).rest := by
    have hcode : (Mode.operator.isCode && cs.ahead != .eof) = true := by
      rw [hk]
      exact bne_iff_ne.2 hne
    change (Mode.operator.trailing cs.ahead _).rest = _
    rw [Mode.trailing, if_pos hcode]
    rfl
  refine ⟨fun hk => ?_, fun hk => ?_, hsingle⟩
  · rw [hbehind rfl (by rintro heq; rw [heq] at hk; exact absurd hk (by decide))]
    exact (hin hk).run (fun hrest hcut => hrest.trailing? hcut) _ _
  · obtain ⟨c, more, hmore, hc⟩ := hopens hk
    have hrun : trailingRun (c :: more) = ⟨[], c :: more, none⟩ :=
      run_eq_nil (trailing?_of_settled (settled_of_solid (solid_of_opening hc more))) _ _
    rw [hbehind hk (by decide), hmore, hrun]
    exact ⟨c, more, rfl, hc⟩

/-! ## Tokens at a distance -/

/-- What is seen at a distance is seen behind the first token. -/
theorem glimpseAt_succ_of_next (h : cs.ahead ≠ .eof) (i : Nat) :
    cs.glimpseAt (i + 1) = ((Place.start cs).next .operator).2.rest.glimpseAt i := by
  have hne : ¬((Place.next (Place.start cs) .operator).1.kind == .eof) = true :=
    fun heof => h (eq_of_beq heof)
  rw [glimpseAt, State.tokenAhead]
  simp only [hne, if_false, Bool.false_eq_true]
  rw [State.glimpse_tokenAhead]

theorem Reaches.next {i : Nat} (h : cs.Reaches i ds) (hkind : ds.ahead ≠ .eof) :
    cs.Reaches (i + 1) ((Place.start ds).next .operator).2.rest := by
  intro j
  rw [← glimpseAt_succ_of_next hkind, ← h (j + 1), Nat.add_assoc, Nat.add_comm 1]

/-- Where markup or an interpolation opens, there is no bracket. -/
theorem ahead_ne_lBrack (hc : c ∈ ['<', '{']) (more : Text) : Text.ahead (c :: more) ≠ .lBrack := by
  have hleading : Mode.operator.leading (c :: more) = ⟨[], c :: more, none⟩ :=
    run_eq_nil (solid_of_opening hc more) _ _
  have hkind : Text.ahead (c :: more) = (Code.lexeme .operator (c :: more)).kind := by
    change (Code.lexeme .operator (Mode.operator.leading (c :: more)).rest).kind = _
    rw [hleading]
  rw [hkind]
  simp only [List.mem_cons, List.not_mem_nil, or_false] at hc
  rcases hc with rfl | rfl
  · have hmem : (Code.lexeme .operator ('<' :: more)).kind ∈ Code.afterOperand :=
      Code.operator_kind_mem_afterOperand '<' more (by decide)
    intro heq
    rw [heq] at hmem
    exact absurd hmem (by decide)
  · intro heq
    cases heq

end Text

/-! ## No vector -/

variable [Alphabet]

namespace Setting

variable {E : Setting}

/-- **In a tag no bracket closes the type of a vector.** -/
theorem goes_closesVector {cs ds : Text} {i : Nat} (limit : Nat) (hreach : cs.Reaches i ds)
    (hin : ds.InTag) (mode : Mode) (made : List Shape) :
    E.Goes (closesVector limit i 1) ⟨cs, mode, made⟩ false
      ⟨cs, if limit = 0 then mode else .operator, made⟩ := by
  induction limit generalizing i ds mode with
  | zero => exact goes_pure _ _
  | succ limit ih =>
    have hseen : (cs.glimpseAt i).kind = ds.ahead := congrArg Glimpse.kind hreach.glimpseAt
    obtain ⟨htype, hopens, hsingle⟩ := hin.next
    refine (goes_ahead i cs mode made).bind ?_
    simp only [hseen]
    generalize hk : ds.ahead = kind at htype hopens hsingle
    have hstep (hmem : kind ∈ Text.typeKinds) :
        E.Goes (closesVector limit (i + 1) 1) ⟨cs, .operator, made⟩ false
          ⟨cs, .operator, made⟩ := by
      have hne : ds.ahead ≠ .eof := by
        rw [hk]
        rintro rfl
        exact absurd hmem (by decide)
      have hgoes := ih (hreach.next hne) (htype hmem) .operator
      rwa [ite_self] at hgoes
    have hbracket (hgt : kind = .gt) : E.Goes (do return (← Parser.ahead (i + 1)).kind == .lBrack)
        ⟨cs, .operator, made⟩ false ⟨cs, .operator, made⟩ := by
      obtain ⟨c, more, hmore, hc⟩ := hopens hgt
      have hne : ds.ahead ≠ .eof := by
        rw [hk, hgt]
        decide
      have hlast := (hreach.next hne).glimpseAt
      rw [hmore] at hlast
      have hkind : ((cs.glimpseAt (i + 1)).kind == .lBrack) = false := by
        rw [hlast]
        exact beq_eq_false_iff_ne.2 (Text.ahead_ne_lBrack hc more)
      refine (goes_ahead (i + 1) cs .operator made).bind ?_
      rw [hkind]
      exact goes_pure _ _
    have hnone : E.Goes (pure false) ⟨cs, .operator, made⟩ false ⟨cs, .operator, made⟩ :=
      goes_pure _ _
    cases kind <;> first
      | exact hnone
      | exact hstep (by decide)
      | exact hbracket rfl
      | exact absurd hsingle (by decide)

end Setting

/-! ## Elements as operands -/

namespace Xml

/-- No trivia stands behind the first sign of an element. -/
theorem solid_of_opensTag {c : Char} (h : opensTag c = true) (cs : Text) :
    Text.Solid (c :: cs) := by
  have hslash : c ≠ '/' := ne_of_opensTag h _ (by decide)
  have hsolid : isTagSolid c = true := by
    rw [opensTag, Bool.or_eq_true, beq_iff_eq] at h
    rcases h with hstart | rfl
    · exact isTagSolid_of_isTagStart hstart
    · decide
  rw [isTagSolid, Bool.and_eq_true, Bool.not_eq_true', Bool.not_eq_true'] at hsolid
  exact solid_cons hsolid.1 hsolid.2 hslash cs

/-- **In code a tag is seen by its first sign** as well, before an operand and after one. -/
theorem reads_tag_code (mode : Mode) (hmode : mode ∈ [Mode.exprStart, .operator]) {c : Char}
    (hc : opensTag c = true) (cs : Text) :
    mode.Reads ('<' :: c :: cs) .lt Kind.lt.text [] (c :: cs) := by
  have hlexeme : Code.lexeme mode ('<' :: c :: cs) = ⟨.lt, ['<'], c :: cs, none⟩ := by
    simp only [List.mem_cons, List.not_mem_nil, or_false] at hmode
    rcases hmode with rfl | rfl
    · rfl
    · have hlt : '<' ≠ c := (ne_of_opensTag hc _ (by decide)).symm
      have heq : '=' ≠ c := (ne_of_opensTag hc _ (by decide)).symm
      change Code.operator ⟨.lt, _⟩ '<' (c :: cs) = _
      simp [Code.operator, List.isPrefixOf, hlt, heq]
  have htrailing : trailingRun (c :: cs) = ⟨[], c :: cs, none⟩ :=
    run_eq_nil (trailing?_of_settled (settled_of_solid (solid_of_opensTag hc cs))) _ _
  have hcode : mode.isCode = true := by
    simp only [List.mem_cons, List.not_mem_nil, or_false] at hmode
    rcases hmode with rfl | rfl <;> rfl
  exact Mode.reads_of_lexeme hcode (by decide) (solid_cons (by decide) (by decide) (by decide) _)
    hlexeme htrailing

theorem reads_print_code (mode : Mode) (hmode : mode ∈ [Mode.exprStart, .operator]) (e : Xml)
    (more : Text) :
    mode.Reads (e.print ++ more) .lt Kind.lt.text [] (e.print ++ more).tail := by
  obtain ⟨c, cs, hprint, hc⟩ := e.exists_print more
  rw [hprint]
  exact reads_tag_code mode hmode hc cs

theorem isTagFiller_of_isTagContinue {c : Char} (h : isTagContinue c = true) :
    isTagFiller c = true :=
  Text.isTagFiller_of_class (any_eq_false_ascii isTagContinue_ascii (by decide)) h

theorem all_isTagFiller_name (n : TagName) : n.text.all isTagFiller = true := by
  have hfirst : isTagFiller n.first = true :=
    Text.isTagFiller_of_class (any_eq_false_ascii isTagStart_ascii (by decide)) n.isStart
  have hothers : n.others.all isTagFiller = true := List.all_eq_true.2 fun c hc =>
    isTagFiller_of_isTagContinue (List.all_eq_true.1 n.isContinued c hc)
  rw [TagName.text, List.all_cons, hfirst, hothers]
  rfl

/-- Attributes come to their first sign; where there are none, what ends the tag does. -/
theorem inTag_printTag (t : XmlTag) {behind : Text} (h : t.attributes = [] → behind.InTag) :
    (printTag t ++ behind).InTag := by
  have hname : t.nameText.all isTagFiller = true := by
    cases t with
    | named name attributes => exact all_isTagFiller_name name
    | ofList => rfl
  rw [printTag_append, Text.inTag_append _ hname]
  cases hattributes : t.attributes with
  | nil => exact h hattributes
  | cons a as =>
    have hsource : (a :: as).flatMap printAttribute ++ behind =
        ' ' :: (a.name.text ++ ('=' :: a.quoted ++ (as.flatMap printAttribute ++ behind))) := by
      simp [printAttribute]
    rw [hsource, Text.inTag_cons (by decide), Text.inTag_append _ (all_isTagFiller_name a.name)]
    refine ⟨'=', a.quote, _, rfl, ?_⟩
    rcases a.isQuote with hquote | hquote <;> rw [hquote] <;> decide

/-- **Behind its first sign an element goes on as a tag**, if it does not open barely. -/
theorem inTag_print {e : Xml} (h : e.opensBarely = false) (more : Text) :
    Text.InTag (e.print ++ more).tail := by
  cases e with
  | closed name attributes =>
    have hsource : ((closed name attributes).print ++ more).tail =
        printTag (.named name attributes) ++ ('/' :: '>' :: more) := by
      simp [print]
    rw [hsource]
    exact inTag_printTag _ fun _ => ⟨'/', '>', more, rfl, by decide⟩
  | paired tag content =>
    have hsource : ((paired tag content).print ++ more).tail =
        printTag tag ++
          ('>' :: (printAll content ++ ('<' :: '/' :: (tag.nameText ++ '>' :: more)))) := by
      simp [print]
    rw [hsource]
    refine inTag_printTag tag fun hattributes => ?_
    have htext : content.head?.any XmlItem.isText = false := by
      simpa [opensBarely, Xml.tag, Xml.content, hattributes] using h
    have hhead :
        (printAll content ++ ('<' :: '/' :: (tag.nameText ++ '>' :: more))).head? = some '<' :=
      head?_printAll htext rfl
    obtain ⟨behind, hbehind⟩ := List.head?_eq_some_iff.1 hhead
    rw [hbehind]
    exact ⟨'>', '<', behind, rfl, by decide⟩

end Xml

/-- **No vector is found at a tag** that goes on behind its first sign. -/
theorem Setting.goes_opensVector {E : Setting} {cs ds : Text}
    (hread : Mode.operator.Reads cs .lt Kind.lt.text [] ds) (hin : ds.InTag) (mode : Mode)
    (made : List Shape) :
    E.Goes opensVector ⟨cs, mode, made⟩ false ⟨cs, .operator, made⟩ :=
  goes_closesVector 32 (Text.reaches_one hread (by decide)) hin mode made

end ActionScript
