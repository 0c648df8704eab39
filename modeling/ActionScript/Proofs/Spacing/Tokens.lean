import ActionScript.Proofs.Markup.Reading
import ActionScript.Proofs.Spacing.Scanners

/-!
# Tokens of squeezed texts

Reading a token from a squeezed text gives the squeezed token, in every mode, and leaves the
squeezed rest.  So a look ahead shows the same, but for the texts of tokens that are no names.

* `Lexeme.echoes_read`: the token itself.
* `Trivia.echoes_run`: the pieces around it.
* `Place.echoes_next`: **the token with the pieces around it, and the place behind it.**
* `Place.echoes_tokenAhead`: the tokens further ahead.
-/

set_option autoImplicit false

namespace ActionScript

open ActionScript.Text

/-! ## Markup -/

namespace Markup

theorem isContent_of_isBlank {c : Char} (h : isBlank c = true) : isContent c = true := by
  have hless : (c == '<') = false := beq_eq_false_of_isBlank h (by decide)
  have hbrace : (c == '{') = false := beq_eq_false_of_isBlank h (by decide)
  simp [isContent, bne, hless, hbrace]

theorem echoes_value {quote : Char} (hquote : isBlank quote = false) (cs : Text) :
    (value quote cs).Echoes (value quote (squeeze cs)) := by
  have hpasses (c : Char) (h : isBlank c = true) : (c != quote) = true := by
    rw [bne, beq_eq_false_of_isBlank h hquote]
    rfl
  have happend := value_append quote cs
  have happend' := value_append quote (squeeze cs)
  rw [← squeeze_cons_of_not hquote] at happend'
  have hrest := dropWhile_squeeze_of_passes hpasses cs
  cases hdrop : cs.dropWhile (· != quote) with
  | nil =>
    rw [hdrop] at hrest
    simp only [value, hdrop, hrest]
    exact .faulty (by simp [hquote]) cs
  | cons c rest =>
    have hc : isBlank c = false := by
      have hopens := opensBlank_dropWhile hpasses cs
      rwa [hdrop] at hopens
    rw [hdrop, squeeze_cons_of_not hc] at hrest
    simp only [value, hdrop, hrest] at happend happend' ⊢
    refine .of_rest happend happend' rfl rfl (fun hcloses => ?_) rfl
    rw [closesBlank, List.getLast?_concat, Option.any_some, hquote] at hcloses
    cases hcloses

/-- **A token inside a tag at the head of a squeezed text is the squeezed token.** -/
theorem echoes_tag [Alphabet] {cs : Text} (h : cs.opensBlank = false) :
    (tag cs).Echoes (tag (squeeze cs)) := by
  cases cs with
  | nil => exact ⟨rfl, rfl, rfl, rfl⟩
  | cons c cs =>
    have hc : isBlank c = false := h
    have hsign : [c].any isBlank = false := by rw [List.any_cons, hc, List.any_nil, Bool.or_self]
    have hstops (c : Char) (h : isBlank c = true) : isTagContinue c = false :=
      isTagContinue_of_isBlank h
    rw [squeeze_cons_of_not hc]
    simp only [tag_cons, head?_squeeze_eq_some (show isBlank '>' = false by decide),
      head?_squeeze_eq_some (show isBlank '/' = false by decide), takeWhile_squeeze_of_stops hstops,
      dropWhile_squeeze_of_stops hstops]
    refine .choice (fun hhead => ?_) fun _ => .choice (fun hhead => ?_) fun _ => ?_
    · rw [tail_squeeze (by decide) hhead.2]
      exact .solid (by decide) _
    · rw [tail_squeeze (by decide) hhead.2]
      exact .solid (by decide) _
    -- one sign alone
    refine .choice (fun _ => .solid hsign _) fun _ => .choice (fun _ => .solid hsign _) fun _ => ?_
    refine .choice (fun _ => .solid hsign _) fun _ => .choice (fun _ => .solid hsign _) fun _ => ?_
    refine .choice (fun _ => .solid hsign _) fun _ =>
      .choice (fun _ => echoes_value hc cs) fun _ => ?_
    refine .choice (fun _ => .solid ?_ _) fun _ => .faulty hsign cs
    rw [List.any_cons, hc, any_takeWhile_of_stops hstops, Bool.or_self]

theorem solid_marks {e : Enclosure} (h : e ∈ enclosures) :
    e.opening.any isBlank = false ∧ e.closing.any isBlank = false ∧ e.closing ≠ [] := by
  simp only [enclosures, List.mem_cons, List.not_mem_nil, or_false] at h
  rcases h with rfl | rfl | rfl <;> decide

theorem echoes_enclosed {e : Enclosure} (he : e ∈ enclosures) {cs : Text}
    (h : e.opening.isPrefixOf cs = true) : (enclosed e cs).Echoes (enclosed e (squeeze cs)) := by
  obtain ⟨hopening, hclosing, hne⟩ := solid_marks he
  have happend := enclosed_append e h
  have happend' := enclosed_append e ((isPrefixOf_squeeze hopening cs).trans h)
  have hsplit := splitPast_squeeze hclosing hne (cs.drop e.opening.length)
  unfold enclosed at happend happend' ⊢
  rw [drop_squeeze hopening h, hsplit] at happend' ⊢
  cases hread : splitPast e.closing (cs.drop e.opening.length) with
  | none => exact ⟨rfl, rfl, rfl, rfl⟩
  | some cut =>
    obtain ⟨read, rest⟩ := cut
    rw [hread] at happend happend'
    refine .of_rest happend happend' rfl rfl (fun hcloses => ?_) rfl
    have hsuffix := (suffix_of_splitPast hread).trans (List.suffix_append e.opening read)
    rw [closesBlank_of_suffix hclosing hne hsuffix] at hcloses
    cases hcloses

theorem content_brace (cs : Text) : content ('{' :: cs) = ⟨.lCurly, ['{'], cs, none⟩ := by
  unfold content
  rw [find?_enclosures (by decide)]
  rfl

/-- **A token between tags at the head of a squeezed text is the squeezed token.** -/
theorem echoes_content (cs : Text) : (content cs).Echoes (content (squeeze cs)) := by
  have hpasses (c : Char) (h : isBlank c = true) : isContent c = true := isContent_of_isBlank h
  cases cs with
  | nil => exact ⟨rfl, rfl, rfl, rfl⟩
  | cons c cs =>
    by_cases hc : isContent c = true
    · -- text, which may begin with blanks
      obtain ⟨d, ds, hd, hsame⟩ :
          ∃ d ds, isContent d = true ∧ squeeze (c :: cs) = d :: ds := by
        cases hblank : isBlank c with
        | true => exact ⟨' ', _, by decide, squeeze_cons_of_blank hblank cs⟩
        | false => exact ⟨c, _, hc, squeeze_cons_of_not hblank⟩
      rw [hsame, content_of_isContent hc, content_of_isContent hd, ← hsame]
      exact ⟨rfl, takeWhile_squeeze_of_passes hpasses _, dropWhile_squeeze_of_passes hpasses _, rfl⟩
    · have hblank : isBlank c = false := by
        refine Bool.eq_false_iff.2 fun h => ?_
        exact hc (hpasses c h)
      have hfind : (enclosures.find? fun e => e.opening.isPrefixOf (squeeze (c :: cs))) =
          enclosures.find? fun e => e.opening.isPrefixOf (c :: cs) :=
        List.find?_congr fun e he => isPrefixOf_squeeze (solid_marks he).1 _
      cases hmark : enclosures.find? fun e => e.opening.isPrefixOf (c :: cs) with
      | some e =>
        have hopening := List.find?_some hmark
        have henclosed := echoes_enclosed (List.mem_of_find?_eq_some hmark) hopening
        unfold content
        simp only [hfind, hmark]
        exact henclosed
      | none =>
        rw [hmark] at hfind
        have hsigns : c = '<' ∨ c = '{' := by
          simp only [isContent, Bool.and_eq_true, bne_iff_ne, not_and_or, not_not] at hc
          exact hc
        rw [squeeze_cons_of_not hblank] at hfind ⊢
        rcases hsigns with rfl | rfl
        · simp only [content_less hmark, content_less hfind,
            head?_squeeze_eq_some (show isBlank '/' = false by decide)]
          split
          · rename_i hhead
            rw [tail_squeeze (by decide) hhead]
            exact .solid (by decide) _
          · exact .solid (by decide) _
        · rw [content_brace, content_brace]
          exact .solid (by decide) _

/-- A name inside a tag has no blanks. -/
theorem solid_tag_name [Alphabet] {cs : Text} (h : (tag cs).kind = .name) :
    (tag cs).text.any isBlank = false := by
  cases cs with
  | nil => cases h
  | cons c cs =>
    have hskip {p : Prop} [Decidable p] {a b : Lexeme} (ha : a.kind ≠ .name)
        (hb : b.kind = .name → b.text.any isBlank = false) :
        (if p then a else b).kind = .name → (if p then a else b).text.any isBlank = false := by
      split
      · exact fun h => absurd h ha
      · exact hb
    have hvalue : (value c cs).kind ≠ .name := by
      unfold value
      split <;> (intro hname; cases hname)
    revert h
    rw [tag_cons]
    -- all signs and values are skipped
    refine hskip ?_ <| hskip ?_ <| hskip ?_ <| hskip ?_ <| hskip ?_ <| hskip ?_ <| hskip ?_ <|
      hskip hvalue ?_
    iterate 7
      intro hname
      cases hname
    split
    · rename_i hstart
      have hc : isBlank c = false := by
        refine Bool.eq_false_iff.2 fun hblank => ?_
        have hnot := isTagSolid_of_isTagStart hstart
        simp [isTagSolid, hblank] at hnot
      intro _
      rw [List.any_cons, hc, Bool.false_or]
      exact any_takeWhile_of_stops (fun _ h => isTagContinue_of_isBlank h) cs
    · intro hname
      cases hname

/-- Between tags there are no names. -/
theorem content_kind_ne_name (cs : Text) : (content cs).kind ≠ .name := by
  intro h
  unfold content at h
  split at h
  · rename_i e he
    rw [enclosed_kind] at h
    have hkind := List.mem_map_of_mem (f := Enclosure.kind) (List.mem_of_find?_eq_some he)
    rw [h] at hkind
    exact absurd hkind (by decide)
  · split at h
    · cases h
    · cases h
    · split at h
      · cases h
      · split at h <;> cases h

end Markup

/-- **The token at the head of a squeezed text is the squeezed token**, if no blank comes first or
blanks are content. -/
theorem Lexeme.echoes_read [Alphabet] (mode : Mode) {cs : Text}
    (h : mode ≠ .xmlContent → cs.opensBlank = false) :
    (Lexeme.read mode cs).Echoes (Lexeme.read mode (squeeze cs)) := by
  cases mode with
  | xmlContent => exact Markup.echoes_content cs
  | xmlTag => exact Markup.echoes_tag (h (by decide))
  | operator => exact Code.echoes_lexeme .operator (h (by decide))
  | exprStart => exact Code.echoes_lexeme .exprStart (h (by decide))
  | typeArgs => exact Code.echoes_lexeme .typeArgs (h (by decide))

/-- A name has no blanks. -/
theorem Lexeme.solid_name [Alphabet] {mode : Mode} {cs : Text}
    (h : (Lexeme.read mode cs).kind = .name) :
    (Lexeme.read mode cs).text.any isBlank = false := by
  have hword (mode : Mode) (h : (Code.lexeme mode cs).kind = .name) :
      (Code.lexeme mode cs).text.any isBlank = false := by
    obtain ⟨c, ds, rfl, hstart, hread⟩ := Code.lexeme_name h
    have hc : isBlank c = false := by
      refine Bool.eq_false_iff.2 fun hblank => ?_
      rw [isIdentStart_eq_false_of_ending (mem_endingCodes_of_isBlank hblank)] at hstart
      cases hstart
    rw [hread]
    simp only [Code.word, List.any_cons, hc, Bool.false_or]
    exact any_takeWhile_of_stops (fun _ h => isIdentContinue_of_isBlank h) ds
  cases mode with
  | xmlContent => exact absurd h (Markup.content_kind_ne_name cs)
  | xmlTag => exact Markup.solid_tag_name h
  | operator => exact hword .operator h
  | exprStart => exact hword .exprStart h
  | typeArgs => exact hword .typeArgs h

/-! ## Trivia -/

namespace Trivia

/-- A piece with a single space for each run of blanks. -/
def squeeze (t : Trivia) : Trivia := ⟨t.kind, t.text.squeeze⟩

@[simp] theorem squeeze_kind (t : Trivia) : t.squeeze.kind = t.kind := rfl
@[simp] theorem squeeze_text (t : Trivia) : t.squeeze.text = t.text.squeeze := rfl

@[simp] theorem breaksLine_squeeze (t : Trivia) : t.squeeze.breaksLine = t.breaksLine := by
  have hstops (c : Char) (h : isBlank c = true) : isLineBreak c = false := isLineBreak_of_isBlank h
  simp only [breaksLine, squeeze_kind, squeeze_text, any_squeeze_of_stops hstops]

/-- A cut of the squeezed text. -/
def Cut.squeeze (cut : Cut) : Cut := ⟨cut.piece.squeeze, Text.squeeze cut.rest, cut.closed⟩

theorem comment?_of_ne {c : Char} (h : c ≠ '/') (cs : Text) : comment? (c :: cs) = none := by
  unfold comment?
  split <;> simp_all

theorem comment?_slash {d : Char} (hline : d ≠ '/') (hblock : d ≠ '*') (cs : Text) :
    comment? ('/' :: d :: cs) = none := by
  unfold comment?
  split <;> simp_all

theorem comment?_squeeze (cs : Text) :
    comment? (Text.squeeze cs) = (comment? cs).map Cut.squeeze := by
  have hpasses (c : Char) (h : isBlank c = true) : (!isLineBreak c) = true := by
    rw [isLineBreak_of_isBlank h]
    rfl
  cases cs with
  | nil => rfl
  | cons c cs =>
    by_cases hc : isBlank c = true
    · rw [squeeze_cons_of_blank hc, comment?_of_ne (ne_of_isBlank hc (by decide)),
        comment?_of_ne (by decide)]
      rfl
    rw [squeeze_cons_of_not (by simpa using hc)]
    by_cases hslash : c = '/'
    · subst hslash
      cases cs with
      | nil => rfl
      | cons d ds =>
        by_cases hd : isBlank d = true
        · rw [squeeze_cons_of_blank hd,
            comment?_slash (ne_of_isBlank hd (by decide)) (ne_of_isBlank hd (by decide)),
            comment?_slash (by decide) (by decide)]
          rfl
        rw [squeeze_cons_of_not (by simpa using hd)]
        by_cases hline : d = '/'
        · subst hline
          simp only [comment?, takeWhile_squeeze_of_passes hpasses,
            dropWhile_squeeze_of_passes hpasses]
          rfl
        by_cases hblock : d = '*'
        · subst hblock
          simp only [comment?, splitPast_squeeze (show ['*', '/'].any isBlank = false by decide)
            (List.cons_ne_nil _ _)]
          cases splitPast ['*', '/'] ds with
          | none => rfl
          | some cut => rfl
        · rw [comment?_slash hline hblock, comment?_slash hline hblock]
          rfl
    · rw [comment?_of_ne hslash, comment?_of_ne hslash]
      rfl

theorem blanks?_squeeze (cs : Text) : blanks? (Text.squeeze cs) = (blanks? cs).map Cut.squeeze := by
  have htake := takeWhile_squeeze_of_passes (fun _ h => h) cs
  have hdrop := dropWhile_squeeze_of_passes (fun _ h => h) cs
  unfold blanks?
  rw [htake, hdrop]
  cases cs.takeWhile isBlank with
  | nil => rfl
  | cons c body =>
    obtain ⟨d, ds, hsame⟩ := List.exists_cons_of_ne_nil
      (squeeze_eq_nil_iff.not.2 (List.cons_ne_nil c body))
    simp only [hsame, Option.map_some, Cut.squeeze, Trivia.squeeze]

theorem lineBreak?_of_not {c : Char} (h : isLineBreak c = false) (cs : Text) :
    lineBreak? (c :: cs) = none := by
  unfold lineBreak?
  split
  · rename_i heq
    cases heq
    cases h
  · rename_i heq
    cases heq
    rw [h]
    rfl
  · rename_i heq
    cases heq

/-- Only a return and a feed make up a line break together. -/
theorem lineBreak?_of_isLineBreak {c : Char} (hc : isLineBreak c = true) {cs : Text}
    (h : ¬(c = '\r' ∧ cs.head? = some '\n')) :
    lineBreak? (c :: cs) = some ⟨⟨.newline, [c]⟩, cs, true⟩ := by
  unfold lineBreak?
  split
  · rename_i heq
    cases heq
    exact absurd ⟨rfl, rfl⟩ h
  · rename_i heq
    cases heq
    rw [if_pos hc]
  · rename_i heq
    cases heq

theorem lineBreak?_squeeze (cs : Text) :
    lineBreak? (Text.squeeze cs) = (lineBreak? cs).map Cut.squeeze := by
  cases cs with
  | nil => rfl
  | cons c cs =>
    by_cases hbreak : isLineBreak c = true
    · have hc := isBlank_eq_false_of_isLineBreak hbreak
      rw [squeeze_cons_of_not hc]
      by_cases hreturn : c = '\r' ∧ cs.head? = some '\n'
      · obtain ⟨rfl, hhead⟩ := hreturn
        obtain ⟨rest, rfl⟩ := List.head?_eq_some_iff.1 hhead
        rw [squeeze_cons_of_not (by decide)]
        rfl
      · rw [lineBreak?_of_isLineBreak hbreak hreturn,
          lineBreak?_of_isLineBreak hbreak (by rwa [head?_squeeze_eq_some (by decide)])]
        simp [Cut.squeeze, Trivia.squeeze, squeeze_cons_of_not hc]
    · have hnot : isLineBreak c = false := by simpa using hbreak
      rw [lineBreak?_of_not hnot]
      cases hc : isBlank c with
      | true => rw [squeeze_cons_of_blank hc, lineBreak?_of_not (by decide)]; rfl
      | false => rw [squeeze_cons_of_not hc, lineBreak?_of_not hnot]; rfl

theorem leading?_squeeze (inCode : Bool) (cs : Text) :
    leading? inCode (Text.squeeze cs) = (leading? inCode cs).map Cut.squeeze := by
  rw [leading?, leading?, lineBreak?_squeeze, comment?_squeeze, blanks?_squeeze]
  cases lineBreak? cs with
  | some cut => rfl
  | none =>
    cases inCode with
    | true => cases comment? cs <;> rfl
    | false => rfl

theorem trailing?_squeeze (cs : Text) :
    trailing? (Text.squeeze cs) = (trailing? cs).map Cut.squeeze := by
  rw [trailing?, trailing?, comment?_squeeze, blanks?_squeeze]
  cases comment? cs with
  | none => rfl
  | some cut =>
    have hbreaks : cut.squeeze.piece.breaksLine = cut.piece.breaksLine :=
      cut.piece.breaksLine_squeeze
    simp only [Option.map_some, hbreaks]
    split <;> rfl

/-! ### Runs of pieces -/

/-- The second run is that of the squeezed text. -/
structure Run.Echoes (a b : Run) : Prop where
  pieces : b.pieces = a.pieces.map squeeze
  rest : b.rest = Text.squeeze a.rest
  flaw : b.flaw.map Flaw.error = a.flaw.map Flaw.error

theorem Run.Echoes.empty (cs : Text) : (⟨[], cs, none⟩ : Run).Echoes ⟨[], Text.squeeze cs, none⟩ :=
  ⟨rfl, rfl, rfl⟩

section
variable {next? : Text → Option Cut}

/-- Behind each piece there is less left of the text. -/
def Shortens (next? : Text → Option Cut) : Prop :=
  ∀ cs cut, next? cs = some cut → cut.rest.length < cs.length

theorem Shortens.nil (h : Shortens next?) : next? [] = none := by
  cases hnext : next? [] with
  | none => rfl
  | some cut => exact absurd (h [] cut hnext) (Nat.not_lt_zero _)

theorem shortens_of_append
    (happend : ∀ {cs : Text} {cut : Cut}, next? cs = some cut → cs = cut.piece.text ++ cut.rest)
    (hne : ∀ {cs : Text} {cut : Cut}, next? cs = some cut → cut.piece.text ≠ []) :
    Shortens next? := by
  intro cs cut h
  have hpos := List.length_pos_of_ne_nil (hne h)
  rw [happend h, List.length_append]
  omega

/-- **Pieces cut from a squeezed text are the squeezed pieces**, whatever the limits, as long as
they suffice. -/
theorem echoes_run (hshort : Shortens next?)
    (hnext : ∀ cs, next? (Text.squeeze cs) = (next? cs).map Cut.squeeze) (m n i j : Nat) {cs : Text}
    (hm : cs.length ≤ m) (hn : (Text.squeeze cs).length ≤ n) :
    (run next? m i cs).Echoes (run next? n j (Text.squeeze cs)) := by
  induction m generalizing n i j cs with
  | zero =>
    obtain rfl : cs = [] := List.length_eq_zero_iff.1 (Nat.le_zero.1 hm)
    rw [squeeze_nil, run_eq_nil hshort.nil, run_eq_nil hshort.nil]
    exact .empty []
  | succ m ih =>
    have hsame := hnext cs
    cases hcut : next? cs with
    | none =>
      rw [hcut] at hsame
      rw [run_eq_nil hcut, run_eq_nil hsame]
      exact .empty cs
    | some cut =>
      rw [hcut] at hsame
      have hless := hshort cs cut hcut
      have hless' : (Text.squeeze cut.rest).length < (Text.squeeze cs).length :=
        hshort _ cut.squeeze hsame
      obtain ⟨n, rfl⟩ : ∃ k, n = k + 1 := ⟨n - 1, by omega⟩
      have hmore : (run next? m (i + cut.piece.text.size) cut.rest).Echoes
          (run next? n (j + cut.squeeze.piece.text.size) (Text.squeeze cut.rest)) :=
        ih n _ _ (by omega) (by omega)
      have hflaw := hmore.flaw
      simp only [run, hcut, hsame, Option.map_some]
      refine ⟨congrArg (cut.piece.squeeze :: ·) hmore.pieces, hmore.rest, ?_⟩
      change Option.map _ ((if cut.closed then _ else _) <|> _) = _
      cases cut.closed with
      | true => simpa [Cut.squeeze] using hflaw
      | false => simp

/-- A run goes on as long as there are pieces. -/
theorem next?_rest (hshort : Shortens next?) (limit offset : Nat) {cs : Text}
    (hlimit : cs.length ≤ limit) : next? (run next? limit offset cs).rest = none := by
  induction limit generalizing offset cs with
  | zero =>
    obtain rfl : cs = [] := List.length_eq_zero_iff.1 (Nat.le_zero.1 hlimit)
    exact hshort.nil
  | succ limit ih =>
    cases hcut : next? cs with
    | none =>
      rw [run_eq_nil hcut]
      exact hcut
    | some cut =>
      have hless := hshort cs cut hcut
      simp only [run, hcut]
      exact ih _ (by omega)

end

theorem shortens_leading? (inCode : Bool) : Shortens (leading? inCode) :=
  shortens_of_append leading?_append leading?_ne

theorem shortens_trailing? : Shortens trailing? := shortens_of_append trailing?_append trailing?_ne

theorem opensBlank_of_blanks? {cs : Text} (h : blanks? cs = none) : cs.opensBlank = false := by
  cases cs with
  | nil => rfl
  | cons c cs =>
    refine Bool.eq_false_iff.2 fun hc => ?_
    rw [opensBlank_cons] at hc
    simp [blanks?, hc] at h

/-- Behind the pieces in front of a token comes no blank. -/
theorem opensBlank_leadingRun (inCode : Bool) (cs : Text) :
    (leadingRun inCode cs).rest.opensBlank = false := by
  have hnone := next?_rest (shortens_leading? inCode) cs.length 0 (Nat.le_refl cs.length)
  refine opensBlank_of_blanks? ?_
  unfold leading? at hnone
  rw [Option.orElse_eq_none, Option.orElse_eq_none] at hnone
  exact hnone.2.2

end Trivia

/-! ## Places -/

/-- The second token is the first one squeezed. -/
structure Token.Echoes (a b : Token) : Prop where
  kind : b.kind = a.kind
  leading : b.leading = a.leading.map Trivia.squeeze
  text : b.text = a.text.squeeze
  trailing : b.trailing = a.trailing.map Trivia.squeeze
  flaw : b.flaw.map Flaw.error = a.flaw.map Flaw.error
  /-- Names are the same. -/
  name : a.kind = .name → b.text = a.text

theorem Token.Echoes.startsLine {a b : Token} (h : a.Echoes b) : b.startsLine = a.startsLine := by
  rw [Token.startsLine, Token.startsLine, h.leading, List.any_map]
  congr 1
  exact funext Trivia.breaksLine_squeeze

theorem Mode.echoes_leading (mode : Mode) (cs : Text) :
    (mode.leading cs).Echoes (mode.leading (squeeze cs)) := by
  unfold Mode.leading
  split
  · exact .empty cs
  · exact Trivia.echoes_run (Trivia.shortens_leading? _) (Trivia.leading?_squeeze _) _ _ _ _
      (Nat.le_refl _) (Nat.le_refl _)

theorem Mode.echoes_trailing (mode : Mode) (kind : Kind) (cs : Text) :
    (mode.trailing kind cs).Echoes (mode.trailing kind (squeeze cs)) := by
  unfold Mode.trailing
  split
  · exact Trivia.echoes_run Trivia.shortens_trailing? Trivia.trailing?_squeeze _ _ _ _
      (Nat.le_refl _) (Nat.le_refl _)
  · exact .empty cs

/-- Behind what is in front of a token comes no blank, unless blanks are content. -/
theorem Mode.opensBlank_leading {mode : Mode} (h : mode ≠ .xmlContent) (cs : Text) :
    (mode.leading cs).rest.opensBlank = false := by
  unfold Mode.leading
  rw [if_neg (by simpa using h)]
  exact Trivia.opensBlank_leadingRun _ cs

namespace Place

variable {p q : Place}

/-- **What is read from a squeezed text is the squeezed token**, and the squeezed rest is left. -/
theorem echoes_next [Alphabet] (h : q.rest = squeeze p.rest) (mode : Mode) :
    (p.next mode).1.Echoes (q.next mode).1 ∧
    (q.next mode).2.rest = squeeze (p.next mode).2.rest := by
  have hbefore := mode.echoes_leading p.rest
  have hread := Lexeme.echoes_read mode fun hmode => Mode.opensBlank_leading hmode p.rest
  have hname : (Lexeme.read mode (mode.leading p.rest).rest).kind = .name → _ := Lexeme.solid_name
  rw [← h] at hbefore
  rw [← hbefore.rest] at hread
  have hbehind := mode.echoes_trailing (Lexeme.read mode (mode.leading p.rest).rest).kind
    (Lexeme.read mode (mode.leading p.rest).rest).rest
  rw [← hread.rest] at hbehind
  simp only [next, hread.kind]
  refine ⟨⟨rfl, hbefore.pieces, hread.text, hbehind.pieces, ?_, fun hkind => ?_⟩, hbehind.rest⟩
  · have hshift (f : Option Flaw) (n : Nat) :
        (f.map (·.shift n)).map Flaw.error = f.map Flaw.error := by
      rw [Option.map_map]
      rfl
    have horElse (f g : Option Flaw) :
        (f <|> g).map Flaw.error = (f.map Flaw.error <|> g.map Flaw.error) := by
      cases f <;> rfl
    simp only [horElse, hshift, hbefore.flaw, hread.flaw, hbehind.flaw]
  · rw [hread.text, squeeze_of_solid (hname hkind)]

/-- **So are the tokens further ahead.** -/
theorem echoes_tokenAhead [Alphabet] (h : q.rest = squeeze p.rest) (n : Nat) :
    (State.tokenAhead n p).Echoes (State.tokenAhead n q) := by
  induction n generalizing p q with
  | zero => exact (echoes_next h .operator).1
  | succ n ih =>
    obtain ⟨htoken, hrest⟩ := echoes_next h .operator
    simp only [State.tokenAhead, htoken.kind]
    split
    · exact htoken
    · exact ih hrest

end Place

end ActionScript
