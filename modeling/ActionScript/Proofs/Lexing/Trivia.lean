import ActionScript.Proofs.LineBreaks
import ActionScript.Proofs.Literals.Escapes
import ActionScript.Proofs.Markup.Gaps

/-!
# How trivia is cut into pieces

At the head of a text there is at most one piece of trivia: its first characters tell of which sort
it is, and each sort has its own rule for where it ends.  In front of a token, such pieces are cut
as long as there are any; behind one, up to the first that breaks a line.

* `Trivia.Canonical`: where a piece of each sort ends.
* `Trivia.leading?_canonical`, `Trivia.leading?_of_canonical`: what is cut is a piece that ends
  where it has to, and there is no other.
* `Trivia.allCanonical_run`: so is all that a run cuts.
* `Place.next_trivia_canonical`: **the pieces around a token**, at every place and in every mode.
-/

set_option autoImplicit false

namespace ActionScript

/-! ## Where a search ends -/

namespace Text

variable {mark t before after : Text}

/-- A search that does not succeed has not missed the mark. -/
theorem splitPast_eq_none_iff : splitPast mark t = none ↔ ¬mark <:+: t := by
  induction t with
  | nil => simp [splitPast]
  | cons c cs ih =>
    rw [splitPast, List.infix_cons_iff, ← List.isPrefixOf_iff_prefix]
    split
    · rename_i hhere
      simp [hhere]
    · rename_i hhere
      simp [hhere, ih]

/-- **A search ends behind the first mark.** -/
theorem exists_body_of_splitPast (hne : mark ≠ []) (h : splitPast mark t = some (before, after)) :
    ∃ body, before = body ++ mark ∧ ¬mark <:+: body := by
  induction t generalizing before with
  | nil => simp [splitPast, hne] at h
  | cons c cs ih =>
    rw [splitPast] at h
    split at h
    · cases h
      exact ⟨[], rfl, by simpa using hne⟩
    · rename_i hhere
      obtain ⟨⟨read, rest⟩, hread, hcut⟩ := Option.map_eq_some_iff.1 h
      cases hcut
      obtain ⟨body, rfl, hbody⟩ := ih hread
      refine ⟨c :: body, rfl, fun hinfix => ?_⟩
      rcases List.infix_cons_iff.1 hinfix with hfirst | hlater
      · -- the mark would stand at the head of the whole text
        have hall : c :: body <+: c :: cs := by
          rw [splitPast_append hread, List.append_assoc]
          exact List.prefix_append (c :: body) _
        exact hhere (List.isPrefixOf_iff_prefix.2 (hfirst.trans hall))
      · exact hbody hlater

end Text

/-! ## Pieces of trivia -/

namespace Trivia

/-- How a line break is written. -/
def lineBreaks : List Text := [['\n'], ['\r'], ['\r', '\n'], ['\u2028'], ['\u2029']]

/-- The piece ends where it has to if the text goes on like this behind it. -/
inductive Canonical : Trivia → Text → Prop where
  /-- Blanks, as many as there are. -/
  | blanks {body behind : Text} : body ≠ [] → (∀ c ∈ body, isBlank c = true) →
      (∀ c ∈ behind.head?, isBlank c = false) → Canonical ⟨.whitespace, body⟩ behind
  /-- One line break; a carriage return is not parted from a line feed. -/
  | newline {body behind : Text} : body ∈ lineBreaks → (body = ['\r'] → behind.head? ≠ some '\n') →
      Canonical ⟨.newline, body⟩ behind
  /-- What is left of the line. -/
  | line {body behind : Text} : (∀ c ∈ body, isLineBreak c = false) →
      (∀ c ∈ behind.head?, isLineBreak c = true) →
      Canonical ⟨.lineComment, '/' :: '/' :: body⟩ behind
  /-- A comment up to the first mark that closes it. -/
  | block {body behind : Text} : ¬['*', '/'] <:+: body →
      Canonical ⟨.blockComment, '/' :: '*' :: (body ++ ['*', '/'])⟩ behind
  /-- A comment that nothing closes, up to the end of the text. -/
  | openBlock {body : Text} :
      ¬['*', '/'] <:+: body → Canonical ⟨.blockComment, '/' :: '*' :: body⟩ []

/-- All pieces of a row end where they have to if the text goes on like this behind the last one. -/
inductive AllCanonical : List Trivia → Text → Prop where
  | nil {behind : Text} : AllCanonical [] behind
  /-- Behind the first piece stand the others. -/
  | cons {t : Trivia} {ts : List Trivia} {behind : Text} : t.Canonical (flatten ts ++ behind) →
      AllCanonical ts behind → AllCanonical (t :: ts) behind

/-! ### What is cut is canonical -/

section
variable {cs : Text} {cut : Cut}

theorem comment?_canonical (h : comment? cs = some cut) : cut.piece.Canonical cut.rest := by
  unfold comment? at h
  split at h
  · cases h
    refine .line (fun c hc => by simpa using List.mem_takeWhile_imp hc) fun c hc => ?_
    simpa using Quotation.not_of_head?_dropWhile c hc
  · split at h
    · rename_i hsplit
      cases h
      obtain ⟨body, rfl, hbody⟩ := Text.exists_body_of_splitPast (by simp) hsplit
      exact .block hbody
    · rename_i hsplit
      cases h
      exact .openBlock (Text.splitPast_eq_none_iff.1 hsplit)
  · cases h

theorem blanks?_canonical (h : blanks? cs = some cut) : cut.piece.Canonical cut.rest := by
  unfold blanks? at h
  split at h
  · cases h
  · rename_i hne
    cases h
    exact .blanks hne (fun c hc => List.mem_takeWhile_imp hc) Quotation.not_of_head?_dropWhile

theorem lineBreak?_canonical (h : lineBreak? cs = some cut) : cut.piece.Canonical cut.rest := by
  unfold lineBreak? at h
  split at h
  · cases h
    exact .newline (by decide) (by simp)
  · rename_i c cs hfeed
    split at h
    · rename_i hbreak
      cases h
      refine .newline ?_ fun hreturn hhead => ?_
      · simpa [isLineBreak, lineBreaks, or_assoc] using hbreak
      · obtain ⟨ds, rfl⟩ := List.head?_eq_some_iff.1 hhead
        exact hfeed ds (List.cons.inj hreturn).1 rfl
    · cases h
  · cases h

/-- **What is cut in front of a token ends where it has to.** -/
theorem leading?_canonical {inCode : Bool} (h : leading? inCode cs = some cut) :
    cut.piece.Canonical cut.rest := by
  rcases leading?_cases h with h | ⟨-, h⟩ | h
  · exact lineBreak?_canonical h
  · exact comment?_canonical h
  · exact blanks?_canonical h

/-- **So does what is cut behind one.** -/
theorem trailing?_canonical (h : trailing? cs = some cut) : cut.piece.Canonical cut.rest := by
  rcases trailing?_cases h with ⟨h, -⟩ | h
  · exact comment?_canonical h
  · exact blanks?_canonical h

end

/-! ### What is canonical is cut -/

section
variable {t : Trivia} {cs behind : Text} {cut : Cut}

theorem lineBreak?_of_mem {body : Text} (hbody : body ∈ lineBreaks)
    (hfeed : body = ['\r'] → behind.head? ≠ some '\n') :
    lineBreak? (body ++ behind) = some ⟨⟨.newline, body⟩, behind, true⟩ := by
  simp only [lineBreaks, List.mem_cons, List.not_mem_nil, or_false] at hbody
  rcases hbody with rfl | rfl | rfl | rfl | rfl
  · exact lineBreak?_of_isLineBreak (by decide) (by simp)
  · exact lineBreak?_of_isLineBreak (by decide) fun h => hfeed rfl h.2
  · rfl
  · exact lineBreak?_of_isLineBreak (by decide) (by simp)
  · exact lineBreak?_of_isLineBreak (by decide) (by simp)

theorem leading?_of_comment? (h : comment? ('/' :: cs) = some cut) :
    leading? true ('/' :: cs) = some cut := by
  simp [leading?, lineBreak?_of_not (show isLineBreak '/' = false by decide), h]

/-- **A piece that ends where it has to is the one that is cut** in front of a token of code. -/
theorem leading?_of_canonical (h : t.Canonical behind) :
    ∃ closed, leading? true (t.text ++ behind) = some ⟨t, behind, closed⟩ := by
  cases h with
  | @blanks body _ hne hbody hbehind =>
    obtain ⟨c, ds, rfl⟩ := List.exists_cons_of_ne_nil hne
    have hblank : isBlank c = true := hbody c List.mem_cons_self
    have hline : lineBreak? (c :: (ds ++ behind)) = none :=
      lineBreak?_of_not (isLineBreak_of_isBlank hblank) _
    have hcomment : comment? (c :: (ds ++ behind)) = none :=
      comment?_of_ne (Text.ne_of_isBlank hblank (by decide)) _
    obtain ⟨htake, hdrop⟩ := Quotation.takeWhile_append_of_head? hbody hbehind
    refine ⟨true, ?_⟩
    rw [List.cons_append] at htake hdrop ⊢
    simp [leading?, hline, hcomment, blanks?, htake, hdrop]
  | newline hbody hfeed => exact ⟨true, by simp [leading?, lineBreak?_of_mem hbody hfeed]⟩
  | @line body _ hbody hbehind =>
    have hline : ∀ c ∈ body, (!isLineBreak c) = true := by simpa using hbody
    have hend : ∀ c ∈ behind.head?, (!isLineBreak c) = false := by simpa using hbehind
    obtain ⟨htake, hdrop⟩ := Quotation.takeWhile_append_of_head? hline hend
    exact ⟨true, leading?_of_comment? (by simp [comment?, htake, hdrop])⟩
  | @block body _ hbody =>
    have hsplit : Text.splitPast ['*', '/'] (body ++ '*' :: '/' :: behind) =
        some (body ++ ['*', '/'], behind) :=
      @Markup.splitPast_body ['*'] '/' (by decide) body hbody behind
    exact ⟨true, leading?_of_comment? (by simp [comment?, hsplit])⟩
  | @openBlock body hbody =>
    exact ⟨false, leading?_of_comment? (by simp [comment?, Text.splitPast_eq_none_iff.2 hbody])⟩

/-- Behind a token of code a piece is cut unless it breaks a line. -/
theorem trailing?_of_canonical (h : t.Canonical behind) :
    (trailing? (t.text ++ behind)).isSome = !t.breaksLine := by
  obtain ⟨closed, hcut⟩ := leading?_of_canonical h
  rw [(pieces_of_code hcut).1]
  cases t.breaksLine <;> rfl

/-- In front of a token a piece is cut unless it is a comment and the mode has none. -/
theorem leading?_isSome_of_canonical {inCode : Bool} (h : t.Canonical behind)
    (hcomment : t.isComment = true → inCode = true) :
    (leading? inCode (t.text ++ behind)).isSome = true := by
  obtain ⟨closed, hcut⟩ := leading?_of_canonical h
  cases inCode with
  | true => rw [hcut]; rfl
  | false =>
    have hnone : t.isComment = false := by simpa using hcomment
    rw [(pieces_of_code hcut).2.1, hnone]
    rfl

theorem blanks?_of_trailing? (h : trailing? cs = none) : blanks? cs = none := by
  cases hcomment : comment? cs with
  | none => simpa [trailing?, hcomment] using h
  | some cut =>
    obtain ⟨ds, rfl, -⟩ := exists_of_comment? hcomment
    simp [blanks?, show isBlank '/' = false by decide]

theorem Canonical.tells (h : t.Canonical behind) : t.Tells := by
  obtain ⟨closed, hcut⟩ := leading?_of_canonical h
  exact tells_leading hcut

end

/-! ### Runs -/

/-- **All that a run cuts ends where it has to**, if each piece does. -/
theorem allCanonical_run {next? : Text → Option Cut}
    (happend : ∀ {cs : Text} {cut : Cut}, next? cs = some cut → cs = cut.piece.text ++ cut.rest)
    (hnext : ∀ {cs : Text} {cut : Cut}, next? cs = some cut → cut.piece.Canonical cut.rest)
    (limit offset : Nat) (cs : Text) :
    AllCanonical (run next? limit offset cs).pieces (run next? limit offset cs).rest := by
  induction limit generalizing offset cs with
  | zero => exact .nil
  | succ limit ih =>
    rw [run]
    cases hcut : next? cs with
    | none => exact .nil
    | some cut =>
      refine .cons ?_ (ih _ _)
      rw [run_append happend]
      exact hnext hcut

/-- No comments are cut in markup. -/
theorem isComment_of_leading? {cs : Text} {cut : Cut} (h : leading? false cs = some cut) :
    cut.piece.isComment = false := by
  rcases leading?_cases h with h | ⟨hcode, -⟩ | h
  · obtain ⟨-, -, -, -, hkind⟩ := exists_of_lineBreak? h
    simp [isComment, hkind]
  · cases hcode
  · simp [isComment, blanks?_kind h]

end Trivia

namespace Mode

variable (mode : Mode) (cs : Text)

theorem allCanonical_leading :
    Trivia.AllCanonical (mode.leading cs).pieces (mode.leading cs).rest := by
  unfold leading
  split
  · exact .nil
  · exact Trivia.allCanonical_run Trivia.leading?_append Trivia.leading?_canonical _ _ _

theorem allCanonical_trailing (kind : Kind) :
    Trivia.AllCanonical (mode.trailing kind cs).pieces (mode.trailing kind cs).rest := by
  unfold trailing
  split
  · exact Trivia.allCanonical_run Trivia.trailing?_append Trivia.trailing?_canonical _ _ _
  · exact .nil

variable {mode}

/-- In front of a token nothing is left that could be cut. -/
theorem leading?_rest_leading (h : mode ≠ .xmlContent) :
    Trivia.leading? mode.isCode (mode.leading cs).rest = none := by
  rw [leading, if_neg (by simpa using h)]
  exact Trivia.next?_rest (Trivia.shortens_leading? _) _ _ (Nat.le_refl _)

/-- Nor is there behind one, in code. -/
theorem trailing?_rest_trailing (h : mode.isCode = true) {kind : Kind}
    (hkind : kind = .eof → cs = []) : Trivia.trailing? (mode.trailing kind cs).rest = none := by
  unfold trailing
  split
  · exact Trivia.next?_rest Trivia.shortens_trailing? _ _ (Nat.le_refl _)
  · rename_i hend
    rw [hkind (by simpa [h] using hend)]
    rfl

end Mode

/-! ## Tokens -/

/-- The pieces around a token are cut as they have to be if the text goes on like this behind
them. -/
structure Token.WellCut (t : Token) (mode : Mode) (rest : Text) : Prop where
  leading : Trivia.AllCanonical t.leading (t.text ++ (Trivia.flatten t.trailing ++ rest))
  trailing : Trivia.AllCanonical t.trailing rest
  /-- Unless blanks are content, the token itself does not begin with a piece that the mode
  knows. -/
  solid : mode ≠ .xmlContent → ∀ (piece : Trivia) (more : Text), piece.Canonical more →
    (piece.isComment = true → mode.isCode = true) →
    t.text ++ (Trivia.flatten t.trailing ++ rest) ≠ piece.text ++ more
  /-- What stands behind the token stands on its line. -/
  sameLine : ∀ c ∈ Trivia.flatten t.trailing, isLineBreak c = false
  /-- Behind a token of code no blank is left. -/
  noBlank : mode.isCode = true → ∀ c ∈ rest.head?, isBlank c = false
  /-- Nor is anything else, a comment say, unless it breaks the line. -/
  settled : mode.isCode = true → ∀ (piece : Trivia) (more : Text), piece.Canonical more →
    rest = piece.text ++ more → ∃ c ∈ piece.text, isLineBreak c = true
  /-- The token starts a line if there is a line break in front of it, and only then. -/
  startsLine : t.startsLine = true ↔ ∃ c ∈ Trivia.flatten t.leading, isLineBreak c = true
  /-- In a tag there are no comments. -/
  tag : mode = .xmlTag → ∀ piece ∈ t.leading ++ t.trailing, piece.isComment = false
  /-- Between tags there is no trivia. -/
  content : mode = .xmlContent → t.leading = [] ∧ t.trailing = []

namespace Place

variable (place : Place) (mode : Mode)

variable [Alphabet]

/-- Behind the pieces in front of a token stands the token, with what follows it. -/
theorem rest_leading : (mode.leading place.rest).rest =
    (place.next mode).1.text ++
      (Trivia.flatten (place.next mode).1.trailing ++ (place.next mode).2.rest) := by
  have htrailing := mode.trailing_append (Lexeme.read mode (mode.leading place.rest).rest).kind
    (Lexeme.read mode (mode.leading place.rest).rest).rest
  have hread := Lexeme.read_append mode (mode.leading place.rest).rest
  rw [← htrailing] at hread
  exact hread.symm

/-- There is no line break behind a token. -/
theorem any_isLineBreak_trailing :
    (Trivia.flatten (place.next mode).1.trailing).any isLineBreak = false := by
  rw [Trivia.any_isLineBreak_flatten fun t ht => tells_of_mem t (List.mem_append_right _ ht)]
  exact List.any_eq_false.2 fun t ht => by simp [trailing_not_breaksLine t ht]

variable {mode}

/-- Behind a token of code nothing is left that could be cut. -/
theorem trailing?_rest (h : mode.isCode = true) :
    Trivia.trailing? (place.next mode).2.rest = none := by
  refine Mode.trailing?_rest_trailing _ h fun hkind => ?_
  have hend : (mode.leading place.rest).rest = [] := next_kind_eq_eof.1 hkind
  rw [hend, Lexeme.read_nil]

/-- **The pieces around a token.**  At every place and in every mode, each of them ends where the
rule for its sort says, no more of them could be cut, those behind the token stand on its line, and
it starts a line if and only if there is a line break in those in front of it.  In a tag there are
no comments among them, and between tags there are none at all. -/
theorem next_trivia_canonical (mode : Mode) :
    (place.next mode).1.WellCut mode (place.next mode).2.rest := by
  have hrest := place.rest_leading mode
  refine
    { leading := ?leading, trailing := mode.allCanonical_trailing _ _, solid := ?solid
      sameLine := ?sameLine, noBlank := ?noBlank, settled := ?settled, startsLine := ?startsLine
      tag := ?tag, content := ?content }
  case leading =>
    rw [← hrest]
    exact mode.allCanonical_leading _
  case solid =>
    intro hmode piece more hpiece hcomment heq
    have hsome := Trivia.leading?_isSome_of_canonical hpiece hcomment
    rw [← heq, ← hrest, Mode.leading?_rest_leading _ hmode] at hsome
    cases hsome
  case sameLine => simpa using place.any_isLineBreak_trailing mode
  case noBlank =>
    intro hcode c hc
    have hopens :=
      Trivia.opensBlank_of_blanks? (Trivia.blanks?_of_trailing? (place.trailing?_rest hcode))
    rwa [Text.opensBlank, Option.mem_def.1 hc] at hopens
  case settled =>
    -- a piece that breaks no line would have been cut
    intro hcode piece more hpiece heq
    have hsome := Trivia.trailing?_of_canonical hpiece
    rw [← heq, place.trailing?_rest hcode, Option.isSome_none] at hsome
    have hbreaks : piece.text.any isLineBreak = true := by
      rw [show piece.text.any isLineBreak = piece.breaksLine from hpiece.tells]
      simpa using hsome.symm
    exact List.any_eq_true.1 hbreaks
  case startsLine => rw [← any_isLineBreak_leading, List.any_eq_true]
  case tag =>
    rintro rfl
    exact List.forall_mem_append.2 ⟨Trivia.forall_run Trivia.isComment_of_leading?,
      List.forall_mem_nil _⟩
  case content =>
    rintro rfl
    exact ⟨rfl, rfl⟩

end Place

end ActionScript
