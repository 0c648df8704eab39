import ActionScript.Proofs.Spacing.Tokens

/-!
# Trivia in code and in markup

The same text has trivia at its head in front of a token of code, behind one, and in front of a
token of markup.  Behind a token it ends with the line, and in markup comments do not count.

* `Trivia.Gathers`: the pieces at the head of a text, one after the other.
* `Trivia.pieces_of_code`: what a piece in front of a token of code is in the other cases.
* `Trivia.Gathers.trailing`, `Trivia.Gathers.markup`: **what the pieces in front of a token of code
  are split into behind a token, and which of them there are in markup.**
-/

set_option autoImplicit false

namespace ActionScript

namespace Trivia

/-- A comment of either sort. -/
def isComment (t : Trivia) : Bool := t.kind == .lineComment || t.kind == .blockComment

section
variable {next? : Text → Option Cut} {cs rest : Text} {ts : List Trivia}

/-- The pieces at the head of a text, all of them closed, and what stands behind them. -/
inductive Gathers (next? : Text → Option Cut) : Text → List Trivia → Text → Prop where
  | nil {cs : Text} : next? cs = none → Gathers next? cs [] cs
  | cons {cs behind rest : Text} {t : Trivia} {ts : List Trivia} :
      next? cs = some ⟨t, behind, true⟩ →
      Gathers next? behind ts rest → Gathers next? cs (t :: ts) rest

/-- With no limit in its way a run gathers the pieces. -/
theorem Gathers.run_eq (h : Gathers next? cs ts rest) (hshort : Shortens next?) {limit : Nat}
    (offset : Nat) (hlimit : cs.length ≤ limit) : run next? limit offset cs = ⟨ts, rest, none⟩ := by
  induction h generalizing limit offset with
  | nil hnone => exact run_eq_nil hnone _ _
  | @cons cs behind rest t ts hcut h ih =>
    have hless : behind.length < cs.length := hshort cs _ hcut
    obtain ⟨limit, rfl⟩ : ∃ l, limit = l + 1 := ⟨limit - 1, by omega⟩
    simp [run, hcut, ih (offset + t.text.size) (by omega : behind.length ≤ limit)]

theorem gathers_of_run (hshort : Shortens next?) {limit : Nat} (offset : Nat)
    (hlimit : cs.length ≤ limit) (h : run next? limit offset cs = ⟨ts, rest, none⟩) :
    Gathers next? cs ts rest := by
  induction limit generalizing offset cs ts with
  | zero =>
    obtain rfl : cs = [] := List.length_eq_zero_iff.1 (Nat.le_zero.1 hlimit)
    cases h
    exact .nil hshort.nil
  | succ limit ih =>
    cases hcut : next? cs with
    | none =>
      rw [run_eq_nil hcut] at h
      cases h
      exact .nil hcut
    | some cut =>
      obtain ⟨t, behind, closed⟩ := cut
      have hless : behind.length < cs.length := hshort cs _ hcut
      simp only [run, hcut, Run.mk.injEq] at h
      obtain ⟨rfl, rfl, hflaw⟩ := h
      cases closed with
      | false => simp at hflaw
      | true =>
        have hnone : (run next? limit (offset + t.text.size) behind).flaw = none := by
          simpa using hflaw
        refine .cons hcut (ih (offset + t.text.size) (by omega : behind.length ≤ limit) ?_)
        rw [← hnone]

end

theorem exists_of_lineBreak? {cs : Text} {cut : Cut} (h : lineBreak? cs = some cut) :
    ∃ d ds, cs = d :: ds ∧ isLineBreak d = true ∧ cut.piece.kind = .newline := by
  unfold lineBreak? at h
  split at h
  · cases h
    exact ⟨_, _, rfl, rfl, rfl⟩
  · rename_i d ds _
    split at h
    · cases h
      exact ⟨d, ds, rfl, ‹_›, rfl⟩
    · cases h
  · cases h

theorem exists_of_comment? {cs : Text} {cut : Cut} (h : comment? cs = some cut) :
    ∃ ds, cs = '/' :: ds ∧ (cut.piece.kind = .lineComment ∨ cut.piece.kind = .blockComment) := by
  unfold comment? at h
  split at h
  · cases h
    exact ⟨_, rfl, .inl rfl⟩
  · split at h <;> cases h <;> exact ⟨_, rfl, .inr rfl⟩
  · cases h

/-- **A piece of code** is a piece behind a token too unless it breaks a line, and a piece of markup
unless it is a comment, which begins with a slash. -/
theorem pieces_of_code {cs : Text} {cut : Cut} (h : leading? true cs = some cut) :
    trailing? cs = (if cut.piece.breaksLine then none else some cut) ∧
      leading? false cs = (if cut.piece.isComment then none else some cut) ∧
      (cut.piece.isComment = true → ∃ ds, cs = '/' :: ds) := by
  cases hbreak : lineBreak? cs with
  | some c =>
    obtain rfl : c = cut := by simpa [leading?, hbreak] using h
    obtain ⟨d, ds, rfl, hd, hkind⟩ := exists_of_lineBreak? hbreak
    have hcomment : comment? (d :: ds) = none := comment?_of_ne (by rintro rfl; cases hd) ds
    have hblanks : blanks? (d :: ds) = none := by
      simp [blanks?, List.takeWhile_cons_of_neg, isBlank_eq_false_of_isLineBreak hd]
    simp [trailing?, leading?, hbreak, hcomment, hblanks, breaksLine, isComment, hkind]
  | none =>
    cases hcomment : comment? cs with
    | some c =>
      obtain rfl : c = cut := by simpa [leading?, hbreak, hcomment] using h
      obtain ⟨ds, rfl, hkind⟩ := exists_of_comment? hcomment
      have hblanks : blanks? ('/' :: ds) = none := by
        simp [blanks?, show isBlank '/' = false by decide]
      refine ⟨by simp [trailing?, hcomment], ?_, fun _ => ⟨ds, rfl⟩⟩
      rcases hkind with hkind | hkind <;> simp [leading?, hbreak, hblanks, isComment, hkind]
    | none =>
      have hblanks : blanks? cs = some cut := by simpa [leading?, hbreak, hcomment] using h
      have hkind := blanks?_kind hblanks
      simp [trailing?, leading?, hbreak, hcomment, hblanks, breaksLine, isComment, hkind]

/-- Where there is no piece of code, there is none of another sort. -/
theorem no_pieces_of_code {cs : Text} (h : leading? true cs = none) :
    trailing? cs = none ∧ leading? false cs = none := by
  simp only [leading?, if_true, Option.orElse_eq_orElse, Option.orElse_eq_or,
    Option.or_eq_none_iff] at h
  obtain ⟨hbreak, hcomment, hblanks⟩ := h
  simp [trailing?, leading?, hbreak, hcomment, hblanks]

variable {cs rest : Text} {ts : List Trivia}

/-- **Behind a token of code** stand the pieces up to the first that breaks a line. -/
theorem Gathers.trailing (h : Gathers (leading? true) cs ts rest) :
    ∃ behind, Gathers trailing? cs (ts.takeWhile fun t => !t.breaksLine) behind ∧
      Gathers (leading? true) behind (ts.dropWhile fun t => !t.breaksLine) rest := by
  induction h with
  | nil hnone => exact ⟨_, .nil (no_pieces_of_code hnone).1, .nil hnone⟩
  | @cons cs behind rest t ts hcut h ih =>
    have htrailing := (pieces_of_code hcut).1
    dsimp only at htrailing
    cases hbreaks : t.breaksLine with
    | true =>
      rw [hbreaks, if_pos rfl] at htrailing
      refine ⟨cs, ?_, ?_⟩
      · rw [List.takeWhile_cons_of_neg (by simp [hbreaks])]
        exact .nil htrailing
      · rw [List.dropWhile_cons_of_neg (by simp [hbreaks])]
        exact .cons hcut h
    | false =>
      rw [hbreaks, if_neg Bool.false_ne_true] at htrailing
      obtain ⟨left, htaken, hleft⟩ := ih
      refine ⟨left, ?_, ?_⟩
      · rw [List.takeWhile_cons_of_pos (by simp [hbreaks])]
        exact .cons htrailing htaken
      · rwa [List.dropWhile_cons_of_pos (by simp [hbreaks])]

/-- **In markup the same pieces are gathered**, but a comment is none. -/
theorem Gathers.markup (h : Gathers (leading? true) cs ts rest) :
    (∀ t ∈ ts, t.isComment = false) ∧ Gathers (leading? false) cs ts rest ∨
      (∃ t ∈ ts, t.isComment = true) ∧ ∃ us ds, Gathers (leading? false) cs us ('/' :: ds) := by
  induction h with
  | nil hnone => exact .inl ⟨by simp, .nil (no_pieces_of_code hnone).2⟩
  | @cons cs behind rest t ts hcut h ih =>
    obtain ⟨-, hmarkup, hslash⟩ := pieces_of_code hcut
    dsimp only at hmarkup hslash
    cases hcomment : t.isComment with
    | true =>
      rw [hcomment, if_pos rfl] at hmarkup
      obtain ⟨ds, rfl⟩ := hslash hcomment
      exact .inr ⟨⟨t, List.mem_cons_self, hcomment⟩, [], ds, .nil hmarkup⟩
    | false =>
      rw [hcomment, if_neg Bool.false_ne_true] at hmarkup
      rcases ih with ⟨hts, hgathers⟩ | ⟨⟨u, hu, hucomment⟩, us, ds, hgathers⟩
      · exact .inl ⟨by simpa [hcomment] using hts, .cons hmarkup hgathers⟩
      · exact .inr ⟨⟨u, List.mem_cons_of_mem _ hu, hucomment⟩, t :: us, ds, .cons hmarkup hgathers⟩

end Trivia

end ActionScript
