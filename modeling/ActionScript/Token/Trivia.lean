import ActionScript.Token.Basic

/-!
# Trivia

Blanks, line breaks and comments around a token.  Before a token all of them are collected; behind
it only what stands on the same line, so a block comment that spans lines goes to the next token.

* `Trivia.run_append`: collecting pieces loses nothing.
-/

set_option autoImplicit false

namespace ActionScript

namespace Trivia

/-- A piece cut from the head of a text.  `closed` is false for a comment that runs into the end of
the text. -/
structure Cut where
  piece : Trivia
  rest : Text
  closed : Bool := true

/-- A comment of either sort. -/
def comment? : Text → Option Cut
  | '/' :: '/' :: cs =>
    some ⟨⟨.lineComment, '/' :: '/' :: cs.takeWhile fun c => !isLineBreak c⟩,
      cs.dropWhile fun c => !isLineBreak c, true⟩
  | '/' :: '*' :: cs =>
    match Text.splitPast ['*', '/'] cs with
    | some (body, rest) => some ⟨⟨.blockComment, '/' :: '*' :: body⟩, rest, true⟩
    | none => some ⟨⟨.blockComment, '/' :: '*' :: cs⟩, [], false⟩
  | _ => none

/-- A run of blanks. -/
def blanks? (cs : Text) : Option Cut :=
  match cs.takeWhile isBlank with
  | [] => none
  | body => some ⟨⟨.whitespace, body⟩, cs.dropWhile isBlank, true⟩

/-- A line break; a carriage return takes a line feed behind it along. -/
def lineBreak? : Text → Option Cut
  | '\r' :: '\n' :: cs => some ⟨⟨.newline, ['\r', '\n']⟩, cs, true⟩
  | c :: cs => if isLineBreak c then some ⟨⟨.newline, [c]⟩, cs, true⟩ else none
  | [] => none

/-- The next piece in front of a token.  Comments only exist in code. -/
def leading? (inCode : Bool) (cs : Text) : Option Cut :=
  lineBreak? cs <|> (if inCode then comment? cs else none) <|> blanks? cs

/-- The next piece behind a token: nothing that breaks a line. -/
def trailing? (cs : Text) : Option Cut :=
  match comment? cs with
  | some cut => if cut.piece.breaksLine then none else some cut
  | none => blanks? cs

/-- Pieces cut from the head of a text, and the rest.  The flaw counts from the start of the
pieces. -/
structure Run where
  pieces : List Trivia
  rest : Text
  flaw : Option Flaw := none

/-- Cuts up to `limit` pieces, `offset` bytes behind the start of the run. -/
def run (next? : Text → Option Cut) : (limit offset : Nat) → Text → Run
  | 0, _, cs => ⟨[], cs, none⟩
  | limit + 1, offset, cs =>
    match next? cs with
    | none => ⟨[], cs, none⟩
    | some cut =>
      let stop := offset + cut.piece.text.size
      let more := run next? limit stop cut.rest
      let flaw := if cut.closed then none else some ⟨.unterminatedComment, ⟨offset, stop⟩⟩
      ⟨cut.piece :: more.pieces, more.rest, flaw <|> more.flaw⟩

/-- All pieces in front of a token.  No piece is empty, so there are at most as many as
characters. -/
def leadingRun (inCode : Bool) (cs : Text) : Run := run (leading? inCode) cs.length 0 cs

/-- All pieces behind a token. -/
def trailingRun (cs : Text) : Run := run trailing? cs.length 0 cs

/-! ## The sorts of pieces -/

/-- In front of a token a line break is cut, a comment if there are any, or blanks. -/
theorem leading?_cases {inCode : Bool} {cs : Text} {cut : Cut} (h : leading? inCode cs = some cut) :
    lineBreak? cs = some cut ∨ inCode = true ∧ comment? cs = some cut ∨ blanks? cs = some cut := by
  simp only [leading?, Option.orElse_eq_orElse, Option.orElse_eq_or, Option.or_eq_some_iff] at h
  rcases h with h | ⟨-, h | ⟨-, h⟩⟩
  · exact .inl h
  · cases inCode with
    | true => exact .inr (.inl ⟨rfl, h⟩)
    | false => cases h
  · exact .inr (.inr h)

/-- Behind a token a comment is cut that breaks no line, or blanks. -/
theorem trailing?_cases {cs : Text} {cut : Cut} (h : trailing? cs = some cut) :
    comment? cs = some cut ∧ cut.piece.breaksLine = false ∨ blanks? cs = some cut := by
  unfold trailing? at h
  split at h
  · rename_i hcomment
    split at h
    · cases h
    · rename_i hbreaks
      cases h
      exact .inl ⟨hcomment, Bool.eq_false_iff.2 hbreaks⟩
  · exact .inr h

theorem blanks?_kind {cs : Text} {cut : Cut} (h : blanks? cs = some cut) :
    cut.piece.kind = .whitespace := by
  unfold blanks? at h
  split at h <;> cases h
  rfl

/-- Where no piece can be cut a run is empty. -/
theorem run_eq_nil {next? : Text → Option Cut} {cs : Text} (h : next? cs = none)
    (limit offset : Nat) : run next? limit offset cs = ⟨[], cs, none⟩ := by
  cases limit with
  | zero => rfl
  | succ limit => simp only [run, h]

/-! ## Nothing is lost -/

theorem comment?_append {cs : Text} {cut : Cut} (h : comment? cs = some cut) :
    cs = cut.piece.text ++ cut.rest := by
  unfold comment? at h
  split at h
  · simp only [Option.some.injEq] at h
    subst h
    simp [List.takeWhile_append_dropWhile]
  · split at h
    · rename_i hs
      simp only [Option.some.injEq] at h
      subst h
      simp [Text.splitPast_append hs]
    · simp only [Option.some.injEq] at h
      subst h
      simp
  · exact absurd h (by simp)

theorem blanks?_append {cs : Text} {cut : Cut} (h : blanks? cs = some cut) :
    cs = cut.piece.text ++ cut.rest := by
  unfold blanks? at h
  split at h
  · exact absurd h (by simp)
  · simp only [Option.some.injEq] at h
    subst h
    simp [List.takeWhile_append_dropWhile]

theorem lineBreak?_append {cs : Text} {cut : Cut} (h : lineBreak? cs = some cut) :
    cs = cut.piece.text ++ cut.rest := by
  unfold lineBreak? at h
  split at h
  · simp only [Option.some.injEq] at h
    subst h
    rfl
  · split at h
    · simp only [Option.some.injEq] at h
      subst h
      rfl
    · exact absurd h (by simp)
  · exact absurd h (by simp)

theorem leading?_append {inCode : Bool} {cs : Text} {cut : Cut}
    (h : leading? inCode cs = some cut) : cs = cut.piece.text ++ cut.rest := by
  rcases leading?_cases h with h | ⟨-, h⟩ | h
  · exact lineBreak?_append h
  · exact comment?_append h
  · exact blanks?_append h

theorem trailing?_append {cs : Text} {cut : Cut} (h : trailing? cs = some cut) :
    cs = cut.piece.text ++ cut.rest := by
  rcases trailing?_cases h with ⟨h, -⟩ | h
  · exact comment?_append h
  · exact blanks?_append h

/-- **Collecting loses nothing**: the pieces and the rest make up the text. -/
theorem run_append {next? : Text → Option Cut}
    (hnext : ∀ {cs : Text} {cut : Cut}, next? cs = some cut → cs = cut.piece.text ++ cut.rest)
    (limit offset : Nat) (cs : Text) :
    flatten (run next? limit offset cs).pieces ++ (run next? limit offset cs).rest = cs := by
  induction limit generalizing offset cs with
  | zero => simp [run, flatten]
  | succ limit ih =>
    unfold run
    cases hc : next? cs with
    | none => simp [flatten]
    | some cut =>
      have := ih (offset + cut.piece.text.size) cut.rest
      simp only [flatten, List.flatMap_cons, List.append_assoc] at this ⊢
      rw [this]
      exact (hnext hc).symm

end Trivia

end ActionScript
