import ActionScript.Proofs.Ranges

/-!
# Comments that are never closed

A block comment that is never closed runs to the end of the text.  It is a flaw of the token that it
stands in front of or behind.  A token has room for one flaw, the first one, and nothing in front of
a token can be flawed before the comment; but the token itself can be, before a comment behind it.

* `Trivia.IsOpen`: a piece is a comment that is never closed.
* `Place.flaw_of_open_leading`, `Place.flaw_of_open_trailing`: it is the flaw of its token, or the
  token itself has one.
* `openComments_of_parseWithin`: **which open comments are reported**.
-/

set_option autoImplicit false

namespace ActionScript

/-! ## Pieces of trivia -/

namespace Trivia

/-- A block comment without its end. -/
def IsOpen (t : Trivia) : Prop := t.kind = .blockComment ∧ ¬['*', '/'] <:+: t.text.drop 2

/-- An open comment is cut as such, and nothing is left behind it. -/
structure Cut.Ends (cut : Cut) : Prop where
  rest_eq : cut.closed = false → cut.rest = []
  closed_eq : cut.piece.IsOpen → cut.closed = false

theorem ends_of_kind {cut : Cut} (hclosed : cut.closed = true)
    (hkind : cut.piece.kind ≠ .blockComment) : cut.Ends :=
  ⟨fun h => absurd hclosed (by simp [h]), fun h => absurd h.1 hkind⟩

theorem comment?_ends {cs : Text} {cut : Cut} (h : comment? cs = some cut) : cut.Ends := by
  unfold comment? at h
  split at h
  · cases h
    exact ends_of_kind rfl (by simp)
  · split at h
    · rename_i hsplit
      cases h
      exact ⟨fun h => (by cases h), fun h => absurd (Text.suffix_of_splitPast hsplit).isInfix h.2⟩
    · cases h
      exact ⟨fun _ => rfl, fun _ => rfl⟩
  · cases h

theorem blanks?_ends {cs : Text} {cut : Cut} (h : blanks? cs = some cut) : cut.Ends := by
  unfold blanks? at h
  split at h
  · cases h
  · cases h
    exact ends_of_kind rfl (by simp)

theorem lineBreak?_ends {cs : Text} {cut : Cut} (h : lineBreak? cs = some cut) : cut.Ends := by
  unfold lineBreak? at h
  split at h
  · cases h
    exact ends_of_kind rfl (by simp)
  · split at h <;> cases h
    exact ends_of_kind rfl (by simp)
  · cases h

theorem leading?_ends {inCode : Bool} {cs : Text} {cut : Cut} (h : leading? inCode cs = some cut) :
    cut.Ends := by
  rcases leading?_cases h with h | ⟨-, h⟩ | h
  · exact lineBreak?_ends h
  · exact comment?_ends h
  · exact blanks?_ends h

theorem trailing?_ends {cs : Text} {cut : Cut} (h : trailing? cs = some cut) : cut.Ends := by
  rcases trailing?_cases h with ⟨h, -⟩ | h
  · exact comment?_ends h
  · exact blanks?_ends h

section
variable {next? : Text → Option Cut} {limit offset : Nat} {cs : Text}

/-- Behind a flaw there is nothing. -/
theorem run_rest_of_flaw (hnil : next? [] = none)
    (hends : ∀ {cs cut}, next? cs = some cut → cut.Ends)
    {flaw : Flaw} (h : (run next? limit offset cs).flaw = some flaw) :
    (run next? limit offset cs).rest = [] := by
  induction limit generalizing offset cs with
  | zero => cases h
  | succ limit ih =>
    rw [run] at h ⊢
    cases hcut : next? cs with
    | none => rw [hcut] at h; cases h
    | some cut =>
      rw [hcut] at h
      cases hclosed : cut.closed with
      | true => exact ih (by simpa [hclosed] using h)
      | false =>
        change (run next? limit _ cut.rest).rest = []
        rw [(hends hcut).rest_eq hclosed, run_eq_nil hnil]

/-- **An open comment among the pieces is their flaw.** -/
theorem run_flaw_of_open (hnil : next? [] = none)
    (hends : ∀ {cs cut}, next? cs = some cut → cut.Ends) {before behind : List Trivia} {t : Trivia}
    (h : (run next? limit offset cs).pieces = before ++ t :: behind) (ht : t.IsOpen) :
    (run next? limit offset cs).flaw = some ⟨.unterminatedComment,
      ⟨offset + Text.size (flatten before),
        offset + Text.size (flatten before) + t.text.size⟩⟩ := by
  induction limit generalizing offset cs before with
  | zero => cases before <;> cases h
  | succ limit ih =>
    rw [run] at h ⊢
    cases hcut : next? cs with
    | none =>
      rw [hcut] at h
      cases before <;> cases h
    | some cut =>
      rw [hcut] at h
      cases before with
      | nil =>
        obtain ⟨rfl, -⟩ := List.cons.inj h
        simp [(hends hcut).closed_eq ht, flatten]
      | cons first before =>
        obtain ⟨rfl, hmore⟩ :
            cut.piece = first ∧ (run next? limit (offset + cut.piece.text.size) cut.rest).pieces =
          before ++ t :: behind := List.cons.inj h
        have hclosed : cut.closed = true := by
          by_contra hopen
          rw [Bool.not_eq_true] at hopen
          rw [(hends hcut).rest_eq hopen, run_eq_nil hnil] at hmore
          cases before <;> cases hmore
        simpa [hclosed, flatten, Nat.add_assoc] using ih hmore

end

end Trivia

/-! ## Tokens -/

/-- Behind a flaw in front of a token there is nothing. -/
theorem Mode.leading_rest_of_flaw (mode : Mode) {cs : Text} {flaw : Flaw}
    (h : (mode.leading cs).flaw = some flaw) : (mode.leading cs).rest = [] := by
  unfold leading at h ⊢
  split at h
  · cases h
  · rename_i hmode
    rw [if_neg hmode]
    exact Trivia.run_rest_of_flaw (by cases mode.isCode <;> rfl) Trivia.leading?_ends h

namespace Place

variable {p : Place} {mode : Mode} {before behind : List Trivia} {t : Trivia}

/-- **An open comment in front of a token is its flaw.** -/
theorem flaw_of_open_leading [Alphabet] (h : (p.next mode).1.leading = before ++ t :: behind)
    (ht : t.IsOpen) :
    (p.next mode).1.flaw = some ⟨.unterminatedComment,
      ⟨p.offset + Text.size (Trivia.flatten before),
        p.offset + Text.size (Trivia.flatten before) + t.text.size⟩⟩ := by
  have hleading : (mode.leading p.rest).pieces = before ++ t :: behind := h
  have hflaw : (mode.leading p.rest).flaw = some ⟨.unterminatedComment,
      ⟨0 + Text.size (Trivia.flatten before),
        0 + Text.size (Trivia.flatten before) + t.text.size⟩⟩ := by
    unfold Mode.leading at hleading ⊢
    split at hleading
    · cases before <;> cases hleading
    · rename_i hmode
      rw [if_neg hmode]
      exact Trivia.run_flaw_of_open (by cases mode.isCode <;> rfl) Trivia.leading?_ends hleading ht
  have hnext : (p.next mode).1.flaw = ((mode.leading p.rest).flaw.map (·.shift p.offset) <|> _) :=
    rfl
  rw [hnext, hflaw, Nat.zero_add]
  simp [Flaw.shift, Span.shift, Nat.add_comm, Nat.add_left_comm]

/-- **An open comment behind a token is its flaw, or the token itself has one.** -/
theorem flaw_of_open_trailing [Alphabet] (h : (p.next mode).1.trailing = before ++ t :: behind)
    (ht : t.IsOpen) :
    ∃ flaw, (p.next mode).1.flaw = some flaw ∧
      (flaw = ⟨.unterminatedComment,
        ⟨(p.next mode).1.span.stop + Text.size (Trivia.flatten before),
          (p.next mode).1.span.stop + Text.size (Trivia.flatten before) + t.text.size⟩⟩ ∨
      (p.next mode).1.span.contains flaw.span = true) := by
  have htrailing :
      (mode.trailing (p.next mode).1.kind
        (Lexeme.read mode (mode.leading p.rest).rest).rest).pieces =
      before ++ t :: behind := h
  have hleading : (mode.leading p.rest).flaw = none := by
    by_contra hflaw
    obtain ⟨flaw, hflaw⟩ := Option.ne_none_iff_exists'.1 hflaw
    have hrest : (mode.leading p.rest).rest = [] := mode.leading_rest_of_flaw hflaw
    rw [(next_of_eof (next_kind_eq_eof.2 hrest)).2.1] at h
    cases before <;> cases h
  have hflaw :
      (mode.trailing (p.next mode).1.kind (Lexeme.read mode (mode.leading p.rest).rest).rest).flaw =
      some ⟨.unterminatedComment,
        ⟨Text.size (Trivia.flatten before), Text.size (Trivia.flatten before) + t.text.size⟩⟩ := by
    unfold Mode.trailing at htrailing ⊢
    split at htrailing
    · rename_i hcode
      rw [if_pos hcode]
      have hrun := Trivia.run_flaw_of_open rfl Trivia.trailing?_ends htrailing ht
      rwa [Nat.zero_add] at hrun
    · cases before <;> cases htrailing
  have hnext : (p.next mode).1.flaw = ((mode.leading p.rest).flaw.map (·.shift p.offset) <|>
      (Lexeme.read mode (mode.leading p.rest).rest).flaw.map
        (·.shift (p.next mode).1.span.start) <|>
      (mode.trailing (p.next mode).1.kind
        (Lexeme.read mode (mode.leading p.rest).rest).rest).flaw.map
        (·.shift (p.next mode).1.span.stop)) := rfl
  rw [hleading, hflaw] at hnext
  cases hown : (Lexeme.read mode (mode.leading p.rest).rest).flaw with
  | none =>
    rw [hown] at hnext
    refine ⟨_, hnext, .inl ?_⟩
    simp [Flaw.shift, Span.shift, Nat.add_comm, Nat.add_left_comm]
  | some flaw =>
    rw [hown] at hnext
    refine ⟨_, hnext, .inr ?_⟩
    have hspan := ((Lexeme.read_marked mode _ flaw hown).shift (p.next mode).1.span.start).span_le
    rw [Span.contains, Bool.and_eq_true, decide_eq_true_eq, decide_eq_true_eq]
    exact ⟨hspan.1, hspan.2.2⟩

end Place

/-! ## Leaves -/

/-- A leaf among those that show some pieces shows one of them, which lies where the leaf does. -/
theorem Leaf.ShowPieces.exists_piece {offset : Nat} {ts : List Trivia} {ls : List Leaf}
    (h : Leaf.ShowPieces offset ts ls) {l : Leaf} (hl : l ∈ ls) :
    ∃ before t behind, ts = before ++ t :: behind ∧ l.kind = t.kind.kind ∧ l.text = t.text ∧
      l.span = ⟨offset + Text.size (Trivia.flatten before),
        offset + Text.size (Trivia.flatten before) + t.text.size⟩ := by
  induction ts generalizing offset ls with
  | nil =>
    cases ls with
    | nil => cases hl
    | cons m ls => exact h.elim
  | cons t ts ih =>
    cases ls with
    | nil => exact h.elim
    | cons m ls =>
      obtain ⟨hkind, htext, hstart, hrest⟩ := h
      rcases List.mem_cons.1 hl with rfl | hl
      · exact ⟨[], t, ts, rfl, hkind, htext, by simp [Leaf.span, hstart, htext, Trivia.flatten]⟩
      · obtain ⟨before, u, behind, rfl, hkind, htext, hspan⟩ := ih hrest hl
        exact ⟨t :: before, u, behind, rfl, hkind, htext,
          by simp [hspan, Trivia.flatten, Nat.add_assoc]⟩

/-- A block comment without its end. -/
def Leaf.IsOpen (l : Leaf) : Prop := l.kind = .blockComment ∧ ¬['*', '/'] <:+: l.text.drop 2

theorem Leaf.IsOpen.piece {l : Leaf} {t : Trivia} (h : l.IsOpen) (hkind : l.kind = t.kind.kind)
    (htext : l.text = t.text) : t.IsOpen := by
  obtain ⟨hblock, hopen⟩ := h
  refine ⟨?_, htext ▸ hopen⟩
  rw [hblock] at hkind
  cases ht : t.kind <;> rw [ht] at hkind <;> first | rfl | cases hkind

/-! ## Every parse -/

/-- **Which open comments are reported.**  Each is, with the range of the comment, unless it stands
behind a token that has a flaw of its own, which is reported instead. -/
theorem openComments_of_parseWithin [Alphabet] {limits : Limits} {text : Text} {p : Parse}
    (h : parseWithin limits text = .ok p) :
    ∀ t ∈ p.tree.tokens, t.leaf.IsOpen →
      ⟨.lexical .unterminatedComment, t.span⟩ ∈ p.diagnostics ∨
      ∃ u ∈ p.tree.root.significantTokens, t.leaf ∈ u.trailing ∧
        ∃ d ∈ p.lexicalDiagnostics, u.span.contains d.span = true := by
  intro t ht hopen
  obtain ⟨-, -, hproper⟩ := exists_renders h
  obtain ⟨modes, hrenders, hreports⟩ := lexicalDiagnostics_eq h
  have hleaf : t.leaf ∈ (Item.clustersAll p.tree.root.children).flatMap Cluster.leaves := by
    rw [← Tree.Node.map_leaf_tokens]
    exact List.mem_map_of_mem ht
  obtain ⟨c, hc, hl⟩ := List.mem_flatMap.1 hleaf
  have hown : t.leaf ≠ c.leaf := by
    intro heq
    have htrivia := (hproper c hc).1
    rw [← heq, hopen.1] at htrivia
    cases htrivia
  rw [← Tree.Node.map_cluster_significantTokens _ hproper] at hc
  obtain ⟨u, hu, rfl⟩ := List.mem_map.1 hc
  obtain ⟨r, hr, hrender⟩ := exists_rel_of_mem hrenders hu
  -- what is wrong with the token is among the diagnostics
  have hreport {flaw : Flaw} (hflaw : r.flaw = some flaw) :
      ⟨.lexical flaw.error, flaw.span⟩ ∈ p.lexicalDiagnostics := by
    rw [hreports]
    exact List.mem_filterMap.2 ⟨r, hr, by rw [Token.report?, hflaw]; rfl⟩
  obtain ⟨q, mode, rfl⟩ := Place.exists_next_of_mem_read hr
  rw [Cluster.leaves, List.mem_append, List.mem_cons] at hl
  rcases hl with hl | hl | hl
  · obtain ⟨before, piece, behind, hpieces, hkind, htext, hspan⟩ := hrender.leading.exists_piece hl
    have hflaw := Place.flaw_of_open_leading hpieces (hopen.piece hkind htext)
    refine .inl ?_
    rw [Tree.Token.span, hspan]
    exact (List.mem_filter.1 (hreport hflaw)).1
  · exact absurd hl hown
  · obtain ⟨before, piece, behind, hpieces, hkind, htext, hspan⟩ := hrender.trailing.exists_piece hl
    obtain ⟨flaw, hflaw, rfl | hwithin⟩ :=
      Place.flaw_of_open_trailing hpieces (hopen.piece hkind htext)
    · refine .inl ?_
      rw [Tree.Token.span, hspan]
      exact (List.mem_filter.1 (hreport hflaw)).1
    · refine .inr ⟨u, hu, hl, _, hreport hflaw, ?_⟩
      rw [show u.span = _ from hrender.span]
      exact hwithin

/-- An open comment at the end of the text, in front of no more tokens. -/
theorem openComments_of_parseWithin_ending : ∃ p, parseWithin {} "f(1)\n/* g(2)".toList = .ok p ∧
    ∀ t ∈ p.tree.tokens, t.leaf.IsOpen →
      ⟨.lexical .unterminatedComment, t.span⟩ ∈ p.diagnostics ∨
      ∃ u ∈ p.tree.root.significantTokens, t.leaf ∈ u.trailing ∧
        ∃ d ∈ p.lexicalDiagnostics, u.span.contains d.span = true := by
  obtain ⟨p, hp, -⟩ := exists_parseWithin (Limits.endless_maxDepth 256) "f(1)\n/* g(2)".toList
  exact ⟨p, hp, openComments_of_parseWithin hp⟩

/-- Behind a string with an escape that is cut short, an open comment is not reported. -/
theorem unreported_behind_escape : ∃ p, parseWithin {} "\"\\x\" /*".toList = .ok p ∧
    (∃ t ∈ p.tree.tokens, t.leaf.IsOpen) ∧
    ∀ d ∈ p.diagnostics, d.cause ≠ .lexical .unterminatedComment := by
  obtain ⟨p, hp, -⟩ := exists_parseWithin (Limits.endless_maxDepth 256) "\"\\x\" /*".toList
  have hfound : ((parseWithin {} "\"\\x\" /*".toList).toOption.any fun p =>
      (p.tree.tokens.any fun t => t.leaf.kind == .blockComment && t.leaf.text == ['/', '*']) &&
      p.diagnostics.all fun d => d.cause != .lexical .unterminatedComment) = true := by
    decide +kernel
  rw [hp] at hfound
  simp only [Except.toOption, Option.any_some, Bool.and_eq_true, List.any_eq_true, List.all_eq_true,
    beq_iff_eq, bne_iff_ne] at hfound
  obtain ⟨⟨t, ht, hkind, htext⟩, hunreported⟩ := hfound
  refine ⟨p, hp, ⟨t, ht, hkind, ?_⟩, hunreported⟩
  rw [htext]
  decide

end ActionScript
