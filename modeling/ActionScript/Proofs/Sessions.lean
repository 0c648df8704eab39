import Mathlib.Data.Option.Basic
import ActionScript.Proofs.Events
import ActionScript.Proofs.Reading

/-!
# Reading in any order

A reader may be set to any boundary of its text, go back to any token it has read and change its
mode before every token.  Whatever it did before, the next token fits in where the reader stands.

* `Flaw.Marks`: a flaw marks a part of its token that is not empty; every scanner keeps to that.
* `Lexer.Session`: the states of a reader, with the tokens it has read.
* `Lexer.Session.of?_offset`: the offset alone decides where a reader stands.
* `Lexer.session_next`: what the next token is in every session and mode.
-/

set_option autoImplicit false

namespace ActionScript

/-! ## Boundaries -/

/-- There is a place exactly at the boundaries. -/
theorem Place.of?_isSome_iff {text : Text} {offset : Nat} :
    (∃ place, Place.of? text offset = some place) ↔ text.IsBoundary offset := by
  rw [← Option.isSome_iff_exists, Place.of?, Option.isSome_map, Text.isSome_splitAt?_iff]

/-- The place behind a part of the text. -/
theorem Place.of?_append (before after : Text) :
    Place.of? (before ++ after) before.size = some ⟨before.size, after⟩ := by
  rw [Place.of?, Text.splitAt?_append]
  rfl

/-- A place in a text stands behind the part of the text that it leaves out. -/
theorem Place.of?_eq_some {text : Text} {offset : Nat} {place : Place}
    (h : Place.of? text offset = some place) :
    place.offset = offset ∧ ∃ before, text = before ++ place.rest ∧ before.size = offset := by
  obtain ⟨⟨before, after⟩, hsplit, rfl⟩ := Option.map_eq_some_iff.1 h
  obtain ⟨htext, hsize⟩ := Text.splitAt?_eq_some hsplit
  exact ⟨rfl, before, htext, hsize⟩

/-! ## Pieces of trivia -/

namespace Trivia

theorem comment?_ne {cs : Text} {cut : Cut} (h : comment? cs = some cut) :
    cut.piece.text ≠ [] := by
  unfold comment? at h
  split at h
  · cases h
    exact List.cons_ne_nil _ _
  · split at h <;> (cases h; exact List.cons_ne_nil _ _)
  · cases h

theorem blanks?_ne {cs : Text} {cut : Cut} (h : blanks? cs = some cut) : cut.piece.text ≠ [] := by
  unfold blanks? at h
  split at h
  · cases h
  · rename_i body hbody
    cases h
    exact hbody

theorem lineBreak?_ne {cs : Text} {cut : Cut} (h : lineBreak? cs = some cut) :
    cut.piece.text ≠ [] := by
  unfold lineBreak? at h
  split at h
  · cases h
    exact List.cons_ne_nil _ _
  · split at h <;> cases h
    exact List.cons_ne_nil _ _
  · cases h

/-- No piece in front of a token is empty. -/
theorem leading?_ne {inCode : Bool} {cs : Text} {cut : Cut} (h : leading? inCode cs = some cut) :
    cut.piece.text ≠ [] := by
  rcases leading?_cases h with h | ⟨-, h⟩ | h
  · exact lineBreak?_ne h
  · exact comment?_ne h
  · exact blanks?_ne h

/-- No piece behind a token is empty. -/
theorem trailing?_ne {cs : Text} {cut : Cut} (h : trailing? cs = some cut) :
    cut.piece.text ≠ [] := by
  rcases trailing?_cases h with ⟨h, -⟩ | h
  · exact comment?_ne h
  · exact blanks?_ne h

end Trivia

/-! ## Flaws -/

/-- The flaw marks a stretch of `text` that is not empty, where `text` begins at `offset`. -/
def Flaw.Marks (flaw : Flaw) (offset : Nat) (text : Text) : Prop :=
  ∃ before inside after : Text, text = before ++ inside ++ after ∧ inside ≠ [] ∧
    flaw.span = ⟨offset + before.size, offset + before.size + inside.size⟩

namespace Flaw.Marks

variable {flaw : Flaw} {offset : Nat} {text : Text}

/-- A flaw that marks all of a text. -/
theorem whole (error : LexError) (h : text ≠ []) :
    (⟨error, ⟨offset, offset + text.size⟩⟩ : Flaw).Marks offset text :=
  ⟨[], text, [], by simp, h, by simp⟩

theorem append_right (h : flaw.Marks offset text) (more : Text) :
    flaw.Marks offset (text ++ more) := by
  obtain ⟨before, inside, after, rfl, hne, hspan⟩ := h
  exact ⟨before, inside, after ++ more, by simp, hne, hspan⟩

theorem append_left {first : Text} (h : flaw.Marks (offset + first.size) text) :
    flaw.Marks offset (first ++ text) := by
  obtain ⟨before, inside, after, rfl, hne, hspan⟩ := h
  exact ⟨first ++ before, inside, after, by simp, hne, by simp [hspan, Nat.add_assoc]⟩

theorem shift (h : flaw.Marks offset text) (n : Nat) : (flaw.shift n).Marks (n + offset) text := by
  obtain ⟨before, inside, after, htext, hne, hspan⟩ := h
  refine ⟨before, inside, after, htext, hne, ?_⟩
  simp only [Flaw.shift, Span.shift, hspan, Span.mk.injEq]
  omega

/-- A marked stretch is not empty and lies within the text. -/
theorem span_le (h : flaw.Marks offset text) : offset ≤ flaw.span.start ∧
    flaw.span.start < flaw.span.stop ∧ flaw.span.stop ≤ offset + text.size := by
  obtain ⟨before, inside, after, rfl, hne, hspan⟩ := h
  have hpos := Text.size_pos hne
  simp only [hspan, Text.size_append]
  omega

/-- A marked stretch begins and ends between characters. -/
theorem boundary {first : Text} (h : flaw.Marks first.size text) (last : Text) :
    (first ++ text ++ last).IsBoundary flaw.span.start ∧
      (first ++ text ++ last).IsBoundary flaw.span.stop := by
  obtain ⟨before, inside, after, rfl, -, hspan⟩ := h
  rw [hspan]
  exact ⟨⟨first ++ before, inside ++ after ++ last, by simp, by simp⟩,
    ⟨first ++ before ++ inside, after ++ last, by simp, by simp [Nat.add_assoc]⟩⟩

end Flaw.Marks

/-- A comment that is never closed is marked as a whole. -/
theorem Trivia.run_marks {next? : Text → Option Trivia.Cut}
    (hnext : ∀ {cs : Text} {cut : Trivia.Cut}, next? cs = some cut → cut.piece.text ≠ [])
    {limit offset : Nat} {cs : Text} {flaw : Flaw}
    (h : (Trivia.run next? limit offset cs).flaw = some flaw) :
    flaw.Marks offset (Trivia.flatten (Trivia.run next? limit offset cs).pieces) := by
  induction limit generalizing offset cs with
  | zero => cases h
  | succ limit ih =>
    rw [Trivia.run] at h ⊢
    cases hcut : next? cs with
    | none =>
      rw [hcut] at h
      cases h
    | some cut =>
      simp only [hcut] at h ⊢
      rcases (Option.orElse_eq_some _ _ _).1 h with h | ⟨-, h⟩
      · split at h <;> cases h
        exact (Flaw.Marks.whole .unterminatedComment (hnext hcut)).append_right _
      · exact (ih h).append_left

namespace Quotation

theorem escape_text_ne (cs : Text) : (escape cs).1.text ≠ [] := by
  unfold escape
  split
  · exact List.cons_ne_nil _ _
  · exact List.cons_ne_nil _ _
  · unfold bracedEscape
    dsimp only
    split
    · split <;> exact List.cons_ne_nil _ _
    · exact List.cons_ne_nil _ _
  · exact List.cons_ne_nil _ _
  · exact List.cons_ne_nil _ _
  · split <;> exact List.cons_ne_nil _ _

/-- No unit of a literal is empty. -/
theorem body_text_ne {quote : Char} {limit : Nat} {cs : Text} :
    ∀ piece ∈ (body quote limit cs).pieces, piece.text ≠ [] := by
  fun_induction body quote limit cs with
  | case1 | case2 | case3 | case4 => exact fun piece h => absurd h List.not_mem_nil
  | case5 limit c cs hquote hbreak hslash piece rest hescape more ih =>
    refine List.forall_mem_cons.2 ⟨?_, ih⟩
    have := escape_text_ne cs
    rwa [hescape] at this
  | case6 limit c cs hquote hbreak hslash more ih =>
    exact List.forall_mem_cons.2 ⟨List.cons_ne_nil _ _, ih⟩

theorem firstFlaw_marks {pieces : List Piece} {offset : Nat} {flaw : Flaw}
    (hne : ∀ piece ∈ pieces, piece.text ≠ []) (h : firstFlaw offset pieces = some flaw) :
    flaw.Marks offset (pieces.flatMap Piece.text) := by
  induction pieces generalizing offset with
  | nil => cases h
  | cons piece pieces ih =>
    rw [List.forall_mem_cons] at hne
    rw [firstFlaw] at h
    split at h
    · exact (ih hne.2 h).append_left
    · cases h
      exact (Flaw.Marks.whole .invalidEscape hne.1).append_right _

end Quotation

/-- The flaw of the lexeme, if it has one, marks a part of it. -/
def Lexeme.Marked (l : Lexeme) : Prop := ∀ flaw, l.flaw = some flaw → flaw.Marks 0 l.text

namespace Lexeme.Marked

theorem flawless {kind : Kind} {text rest : Text} :
    (⟨kind, text, rest, none⟩ : Lexeme).Marked := by
  intro flaw h
  cases h

theorem faulty {error : LexError} {kind : Kind} {text rest : Text} (h : text ≠ []) :
    (Lexeme.faulty error kind text rest).Marked := by
  intro flaw hflaw
  cases hflaw
  have hwhole : (⟨error, ⟨0, 0 + text.size⟩⟩ : Flaw).Marks 0 text := .whole error h
  rwa [Nat.zero_add] at hwhole

end Lexeme.Marked

theorem Quotation.lexeme_marked (quote : Char) (cs : Text) :
    (Quotation.lexeme quote cs).Marked := by
  unfold Quotation.lexeme
  dsimp only
  split
  · intro flaw h
    have hmarks := Quotation.firstFlaw_marks Quotation.body_text_ne h
    have hcons : flaw.Marks 0 ([quote] ++
        (Quotation.body quote (cs.length + 1) cs).pieces.flatMap Quotation.Piece.text) :=
      Flaw.Marks.append_left (by simpa using hmarks)
    exact hcons.append_right [quote]
  · exact .faulty (List.cons_ne_nil _ _)

theorem Code.lexeme_marked [Alphabet] (mode : Mode) (cs : Text) : (Code.lexeme mode cs).Marked := by
  cases cs with
  | nil => exact .flawless
  | cons c cs =>
    rw [Code.lexeme]
    split
    · exact .flawless
    · split
      · exact Quotation.lexeme_marked c cs
      · split
        · unfold Pattern.lexeme
          split
          · exact .flawless
          · exact .faulty (List.cons_ne_nil _ _)
        · split
          · exact .flawless
          · split
            · unfold Code.operator
              split <;> exact .flawless
            · split
              · exact .flawless
              · exact .faulty (List.cons_ne_nil _ _)

theorem Markup.tag_marked [Alphabet] (cs : Text) : (Markup.tag cs).Marked := by
  unfold Markup.tag
  split
  · exact .flawless
  · exact .flawless
  · exact .flawless
  · rename_i c cs _ _
    -- the signs, then a quoted value, a name and what is neither
    repeat' (split; exact .flawless)
    split
    · unfold Markup.value
      split
      · exact .flawless
      · exact .faulty (List.cons_ne_nil _ _)
    · split
      · exact .flawless
      · exact .faulty (List.cons_ne_nil _ _)

theorem Markup.content_marked {cs : Text} (hne : cs ≠ []) : (Markup.content cs).Marked := by
  unfold Markup.content
  split
  · unfold Markup.enclosed
    split
    · exact .flawless
    · exact .faulty hne
  · split
    · exact .flawless
    · exact .flawless
    · split
      · exact .flawless
      · split <;> exact .flawless

/-- **The flaw of a lexeme marks a part of it**, in every mode. -/
theorem Lexeme.read_marked [Alphabet] (mode : Mode) (cs : Text) : (Lexeme.read mode cs).Marked := by
  cases mode with
  | xmlContent =>
    cases cs with
    | nil => exact .flawless
    | cons c cs => exact Markup.content_marked (List.cons_ne_nil c cs)
  | xmlTag => exact Markup.tag_marked cs
  | operator => exact Code.lexeme_marked .operator cs
  | exprStart => exact Code.lexeme_marked .exprStart cs
  | typeArgs => exact Code.lexeme_marked .typeArgs cs

/-! ## One token -/

namespace Trivia

/-- The offsets between pieces that begin at `offset`, both ends included. -/
def bounds : (offset : Nat) → List Trivia → List Nat
  | offset, [] => [offset]
  | offset, piece :: pieces => offset :: bounds (offset + piece.text.size) pieces

/-- Pieces lie between boundaries. -/
theorem isBoundary_of_mem_bounds {pieces : List Trivia} {first : Text} (last : Text) {n : Nat}
    (h : n ∈ bounds first.size pieces) : (first ++ (flatten pieces ++ last)).IsBoundary n := by
  induction pieces generalizing first with
  | nil =>
    obtain rfl := List.mem_singleton.1 h
    exact ⟨first, _, rfl, rfl⟩
  | cons piece pieces ih =>
    rcases List.mem_cons.1 h with rfl | h
    · exact ⟨first, _, rfl, rfl⟩
    · rw [← Text.size_append] at h
      have := ih h
      simpa [flatten] using this

/-- The size of several pieces is the sum of their sizes. -/
theorem size_flatten (pieces : List Trivia) :
    (flatten pieces).size = (pieces.map fun piece => piece.text.size).sum := by
  induction pieces with
  | nil => rfl
  | cons piece pieces ih =>
    rw [List.map_cons, List.sum_cons, ← ih]
    exact Text.size_append _ _

/-- What holds of each piece that is cut holds of those of a run. -/
theorem forall_run {next? : Text → Option Cut} {P : Trivia → Prop}
    (hnext : ∀ {cs : Text} {cut : Cut}, next? cs = some cut → P cut.piece)
    {limit offset : Nat} {cs : Text} : ∀ piece ∈ (run next? limit offset cs).pieces, P piece := by
  induction limit generalizing offset cs with
  | zero => exact fun piece h => absurd h List.not_mem_nil
  | succ limit ih =>
    rw [run]
    cases hcut : next? cs with
    | none => exact fun piece h => absurd h List.not_mem_nil
    | some cut => exact List.forall_mem_cons.2 ⟨hnext hcut, ih⟩

end Trivia

theorem Mode.forall_leading {P : Trivia → Prop}
    (h : ∀ {inCode : Bool} {cs : Text} {cut : Trivia.Cut},
      Trivia.leading? inCode cs = some cut → P cut.piece) (mode : Mode) (cs : Text) :
    ∀ piece ∈ (mode.leading cs).pieces, P piece := by
  unfold Mode.leading
  split
  · exact fun piece h => absurd h List.not_mem_nil
  · exact Trivia.forall_run h

theorem Mode.forall_trailing {P : Trivia → Prop}
    (h : ∀ {cs : Text} {cut : Trivia.Cut}, Trivia.trailing? cs = some cut → P cut.piece)
    (mode : Mode) (kind : Kind) (cs : Text) :
    ∀ piece ∈ (mode.trailing kind cs).pieces, P piece := by
  unfold Mode.trailing
  split
  · exact Trivia.forall_run h
  · exact fun piece h => absurd h List.not_mem_nil

theorem Mode.leading_ne (mode : Mode) (cs : Text) :
    ∀ piece ∈ (mode.leading cs).pieces, piece.text ≠ [] :=
  mode.forall_leading Trivia.leading?_ne cs

theorem Mode.trailing_ne (mode : Mode) (kind : Kind) (cs : Text) :
    ∀ piece ∈ (mode.trailing kind cs).pieces, piece.text ≠ [] :=
  mode.forall_trailing Trivia.trailing?_ne kind cs

theorem Mode.leading_marks {mode : Mode} {cs : Text} {flaw : Flaw}
    (h : (mode.leading cs).flaw = some flaw) :
    flaw.Marks 0 (Trivia.flatten (mode.leading cs).pieces) := by
  unfold Mode.leading at h ⊢
  split at h
  · cases h
  · rename_i hmode
    rw [if_neg hmode]
    exact Trivia.run_marks Trivia.leading?_ne h

theorem Mode.trailing_marks {mode : Mode} {kind : Kind} {cs : Text} {flaw : Flaw}
    (h : (mode.trailing kind cs).flaw = some flaw) :
    flaw.Marks 0 (Trivia.flatten (mode.trailing kind cs).pieces) := by
  unfold Mode.trailing at h ⊢
  split at h
  · rename_i hcode
    rw [if_pos hcode]
    exact Trivia.run_marks Trivia.trailing?_ne h
  · cases h

/-- **The flaw of a token marks a part of it**, the pieces around it included. -/
theorem Place.next_marks [Alphabet] {place : Place} {mode : Mode} {flaw : Flaw}
    (h : (place.next mode).1.flaw = some flaw) :
    flaw.Marks place.offset (place.next mode).1.source := by
  rcases (Option.orElse_eq_some _ _ _).1 h with h | ⟨-, h⟩
  · obtain ⟨before, hbefore, rfl⟩ := Option.map_eq_some_iff.1 h
    have hmarks := (Mode.leading_marks hbefore).shift place.offset
    exact (hmarks.append_right _).append_right _
  · rcases (Option.orElse_eq_some _ _ _).1 h with h | ⟨-, h⟩
    · obtain ⟨inside, hinside, rfl⟩ := Option.map_eq_some_iff.1 h
      have hmarks := (Lexeme.read_marked mode _ inside hinside).shift
        (place.offset + (Trivia.flatten (mode.leading place.rest).pieces).size)
      exact hmarks.append_left.append_right _
    · obtain ⟨behind, hbehind, rfl⟩ := Option.map_eq_some_iff.1 h
      have hmarks := (Mode.trailing_marks hbehind).shift (place.offset +
        (Trivia.flatten (mode.leading place.rest).pieces ++
          (Lexeme.read mode (mode.leading place.rest).rest).text).size)
      rw [Text.size_append, ← Nat.add_assoc, Nat.add_zero, Nat.add_assoc place.offset,
        ← Text.size_append] at hmarks
      have hsource := hmarks.append_left
      rw [Text.size_append, ← Nat.add_assoc] at hsource
      exact hsource

/-- Every offset that a token tells of: the ends of its pieces, its own and those of its flaw. -/
def Token.bounds (token : Token) : List Nat :=
  Trivia.bounds token.start token.leading ++ [token.span.start, token.span.stop] ++
    Trivia.bounds token.span.stop token.trailing ++
    token.flaw.toList.flatMap fun flaw => [flaw.span.start, flaw.span.stop]

/-- The token lies in the text from `first` to `last`. -/
structure Token.Fits (token : Token) (text : Text) (first last : Nat) : Prop where
  /-- Its source is that stretch of the text. -/
  source_at : ∃ before after, text = before ++ token.source ++ after ∧ before.size = first
  start_eq : token.start = first
  stop_eq : token.fullSpan.stop = last
  leading_sum :
    token.start + (token.leading.map fun piece => piece.text.size).sum = token.span.start
  trailing_sum :
    token.span.stop + (token.trailing.map fun piece => piece.text.size).sum = token.fullSpan.stop
  piece_pos : ∀ piece ∈ token.leading ++ token.trailing, 0 < piece.text.size
  boundary : ∀ n ∈ token.bounds, text.IsBoundary n
  /-- The end is read where the text ends, and only there. -/
  eof_iff : token.kind = .eof ↔ token.span.start = text.size
  eof_empty : token.kind = .eof → token.span.stop = token.span.start ∧ token.trailing = []
  pos : token.kind ≠ .eof → token.span.start < token.span.stop
  flaw_pos : ∀ flaw, token.flaw = some flaw → flaw.span.start < flaw.span.stop
  flaw_within : ∀ flaw, token.flaw = some flaw → token.fullSpan.contains flaw.span = true

/-- The end of a token, its trailing pieces included, is where its source ends. -/
theorem Token.fullSpan_stop (token : Token) :
    token.fullSpan.stop = token.start + token.source.size := by
  simp only [Token.fullSpan, Token.span, Token.source, Text.size_append]
  omega

/-- Every offset of a token is a boundary of the text that it stands in. -/
theorem Token.isBoundary_of_mem_bounds {token : Token} {before : Text} (after : Text)
    (hstart : token.start = before.size)
    (hflaw : ∀ flaw, token.flaw = some flaw → flaw.Marks before.size token.source) {n : Nat}
    (h : n ∈ token.bounds) : (before ++ token.source ++ after).IsBoundary n := by
  have hfirst : token.span.start = (before ++ Trivia.flatten token.leading).size := by
    rw [Text.size_append, ← hstart]
    rfl
  have hlast : token.span.stop = (before ++ Trivia.flatten token.leading ++ token.text).size := by
    rw [Text.size_append, ← hfirst]
    rfl
  simp only [Token.bounds, List.mem_append, List.mem_flatMap, Option.mem_toList] at h
  rcases h with ((h | h) | h) | ⟨flaw, hsome, h⟩
  · rw [hstart] at h
    simpa [Token.source] using
      Trivia.isBoundary_of_mem_bounds (token.text ++ Trivia.flatten token.trailing ++ after) h
  · simp only [List.mem_cons, List.not_mem_nil, or_false] at h
    rcases h with rfl | rfl
    · exact ⟨_, token.text ++ Trivia.flatten token.trailing ++ after, by simp [Token.source],
        hfirst.symm⟩
    · exact ⟨_, Trivia.flatten token.trailing ++ after, by simp [Token.source], hlast.symm⟩
  · rw [hlast] at h
    simpa [Token.source] using Trivia.isBoundary_of_mem_bounds after h
  · have hboundary := (hflaw flaw hsome).boundary after
    simp only [List.mem_cons, List.not_mem_nil, or_false] at h
    rcases h with rfl | rfl
    · exact hboundary.1
    · exact hboundary.2

/-- **A token fits in** between the place where it is read and the place behind it. -/
theorem Place.next_fits [Alphabet] {before : Text} {place : Place}
    (hplace : before.size = place.offset)
    (mode : Mode) :
    (place.next mode).1.Fits (before ++ place.rest) place.offset (place.next mode).2.offset := by
  have hrest := place.next_append mode
  have hstart : (place.next mode).1.span.start =
      place.offset + (Trivia.flatten (mode.leading place.rest).pieces).size := rfl
  have htext : before ++ place.rest =
      before ++ (place.next mode).1.source ++ (place.next mode).2.rest := by
    rw [List.append_assoc, hrest]
  refine ⟨⟨before, (place.next mode).2.rest, htext, hplace⟩, rfl, ?_, ?_, ?_, ?_, ?_, ?_, ?_, ?_,
    ?_, ?_⟩
  · rw [Token.fullSpan_stop, place.next_offset mode]
    rfl
  · rw [← Trivia.size_flatten]
    rfl
  · rw [← Trivia.size_flatten]
    rfl
  · intro piece h
    refine Text.size_pos ?_
    rcases List.mem_append.1 h with h | h
    · exact mode.leading_ne _ piece h
    · exact mode.trailing_ne _ _ piece h
  · intro n h
    rw [htext]
    refine Token.isBoundary_of_mem_bounds _ hplace.symm (fun flaw hflaw => ?_) h
    rw [hplace]
    exact Place.next_marks hflaw
  · rw [Place.next_kind_eq_eof, hstart, Text.size_append, hplace]
    have hsize := congrArg Text.size (mode.leading_append place.rest)
    rw [Text.size_append] at hsize
    constructor
    · intro h
      rw [h, Text.size_nil] at hsize
      omega
    · intro h
      by_contra hne
      have := Text.size_pos hne
      omega
  · intro h
    obtain ⟨htext, htrailing, -⟩ := Place.next_of_eof h
    refine ⟨?_, htrailing⟩
    simp only [Token.span, htext, Text.size_nil, Nat.add_zero]
  · intro h
    have := Text.size_pos (Place.next_text_ne h)
    simp only [Token.span]
    omega
  · exact fun flaw h => (Place.next_marks h).span_le.2.1
  · intro flaw h
    obtain ⟨hfirst, -, hlast⟩ := (Place.next_marks h).span_le
    rw [Span.contains, Bool.and_eq_true, decide_eq_true_eq, decide_eq_true_eq,
      Token.fullSpan_stop]
    exact ⟨hfirst, hlast⟩

/-! ## Sessions -/

namespace Lexer

/-- The states of a reader of `text`, with the tokens it has read.  It begins at any boundary; then
it reads in any modes, goes back to tokens it has read, and is set to other boundaries. -/
inductive Session [Alphabet] (text : Text) : Lexer → List Token → Prop
  | begin {offset : Nat} {l : Lexer} (h : of? text offset = some l) : Session text l []
  | next {l : Lexer} {read : List Token} (s : Session text l read) (mode : Mode) :
    Session text (l.next mode).2 ((l.next mode).1 :: read)
  | rewind {l back : Lexer} {read : List Token} (s : Session text l read) {token : Token}
    (hread : token ∈ read) (h : l.rewind? token = some back) : Session text back read
  | reset {l moved : Lexer} {read : List Token} (s : Session text l read) {offset : Nat}
    (h : l.reset? offset = some moved) : Session text moved read

variable {text : Text} {l : Lexer} {read : List Token}

/-- A reader can be had exactly at the boundaries. -/
theorem of?_isSome_iff {offset : Nat} :
    (∃ l, of? text offset = some l) ↔ text.IsBoundary offset := by
  rw [← Place.of?_isSome_iff]
  constructor
  · rintro ⟨l, h⟩
    obtain ⟨place, hplace, -⟩ := Option.map_eq_some_iff.1 h
    exact ⟨place, hplace⟩
  · rintro ⟨place, hplace⟩
    exact ⟨⟨text, place⟩, Option.map_eq_some_iff.2 ⟨place, hplace, rfl⟩⟩

/-- A reader at an offset stands there. -/
theorem of?_eq_some {offset : Nat} (h : of? text offset = some l) :
    l.place.offset = offset ∧ of? text l.place.offset = some l := by
  obtain ⟨place, hplace, rfl⟩ := Option.map_eq_some_iff.1 h
  obtain ⟨rfl, -⟩ := Place.of?_eq_some hplace
  exact ⟨rfl, h⟩

/-- A reader at an offset has the text, up to where it stands and from there on. -/
theorem exists_before {offset : Nat} (h : of? text offset = some l) :
    l.text = text ∧ ∃ before, text = before ++ l.place.rest ∧ before.size = l.place.offset := by
  obtain ⟨place, hplace, rfl⟩ := Option.map_eq_some_iff.1 h
  obtain ⟨rfl, before, htext, hsize⟩ := Place.of?_eq_some hplace
  exact ⟨rfl, before, htext, hsize⟩

section

variable [Alphabet]

/-- Reading a token leaves the reader where it would stand had it been set there. -/
theorem of?_next (h : of? text l.place.offset = some l) (mode : Mode) :
    of? text (l.next mode).2.place.offset = some (l.next mode).2 := by
  obtain ⟨htext, before, hbefore, hsize⟩ := exists_before h
  have hrest : l.place.rest = (l.place.next mode).1.source ++ (l.place.next mode).2.rest :=
    (l.place.next_append mode).symm
  have hoffset : (l.place.next mode).2.offset =
      (before ++ (l.place.next mode).1.source).size := by
    rw [l.place.next_offset mode, Text.size_append, hsize]
  have hplace : Place.of? text (l.place.next mode).2.offset = some (l.place.next mode).2 := by
    rw [hbefore, hrest, ← List.append_assoc, hoffset, Place.of?_append, ← hoffset]
  change (Place.of? text (l.place.next mode).2.offset).map _ =
    some (⟨l.text, (l.place.next mode).2⟩ : Lexer)
  rw [hplace, Option.map_some, htext]

namespace Session

/-- **The offset alone decides where a reader stands**: it is the reader set to that offset. -/
theorem of?_offset (h : Session text l read) : of? text l.place.offset = some l := by
  induction h with
  | begin h => exact (of?_eq_some h).2
  | next s mode ih => exact of?_next ih mode
  | rewind s hread h ih =>
    rw [rewind?, reset?, (exists_before ih).1] at h
    exact (of?_eq_some h).2
  | reset s h ih =>
    rw [reset?, (exists_before ih).1] at h
    exact (of?_eq_some h).2

theorem text_eq (h : Session text l read) : l.text = text := (exists_before h.of?_offset).1

/-- The reader can be set to every boundary. -/
theorem reset?_isSome_iff (h : Session text l read) {offset : Nat} :
    (∃ moved, l.reset? offset = some moved) ↔ text.IsBoundary offset := by
  rw [reset?, h.text_eq]
  exact of?_isSome_iff

theorem next_fits (h : Session text l read) (mode : Mode) :
    (l.next mode).1.Fits text l.place.offset (l.next mode).2.place.offset := by
  obtain ⟨-, before, hbefore, hsize⟩ := exists_before h.of?_offset
  rw [hbefore]
  exact Place.next_fits hsize mode

/-- Every token that was read begins at a boundary. -/
theorem isBoundary_start (h : Session text l read) :
    ∀ token ∈ read, text.IsBoundary token.start := by
  induction h with
  | begin h => exact fun token ht => absurd ht List.not_mem_nil
  | next s mode ih =>
    refine List.forall_mem_cons.2 ⟨?_, ih⟩
    exact of?_isSome_iff.1 ⟨_, s.of?_offset⟩
  | rewind s hread h ih => exact ih
  | reset s h ih => exact ih

/-- **Going back always works**, to every token that was read. -/
theorem exists_rewind (h : Session text l read) {token : Token} (ht : token ∈ read) :
    ∃ back, l.rewind? token = some back ∧ back.place.offset = token.start := by
  obtain ⟨back, hback⟩ := h.reset?_isSome_iff.2 (h.isBoundary_start token ht)
  refine ⟨back, hback, ?_⟩
  rw [reset?, h.text_eq] at hback
  exact (of?_eq_some hback).1

end Session

/-- **The next token fits in, whatever was read before**: in every session and mode it covers the
text from where the reader stands to where it stands then, piece by piece, and is empty only at the
end of the text.  Readers that stand at the same offset read the same, and each can go back to all
it has read and on to every boundary. -/
theorem session_next (h : Session text l read) (mode : Mode) :
    (l.next mode).1.Fits text l.place.offset (l.next mode).2.place.offset ∧
      (∀ l' read', Session text l' read' → l'.place.offset = l.place.offset →
        l'.next mode = l.next mode) ∧
      (∀ token ∈ read, ∃ back, l.rewind? token = some back ∧
        back.place.offset = token.start) ∧
      ∀ offset, (∃ moved, l.reset? offset = some moved) ↔ text.IsBoundary offset := by
  refine ⟨h.next_fits mode, fun l' read' h' hoffset => ?_, fun token ht => h.exists_rewind ht,
    fun offset => h.reset?_isSome_iff⟩
  have heq := h'.of?_offset
  rw [hoffset, h.of?_offset] at heq
  rw [Option.some.inj heq]

end

/-- After an operand `/é/` divides; once the reader has gone back it is one pattern, and the comment
behind it, which is never closed, belongs to its token. -/
theorem session_next_pattern :
    let text : Text := ['/', 'é', '/', ' ', '/', '*']
    let l : Lexer := ⟨text, .start text⟩
    Session text l [(l.next .operator).1] ∧ (l.next .operator).1.text = ['/'] ∧
      (l.next .exprStart).1.text = ['/', 'é', '/'] ∧
      (l.next .exprStart).1.flaw = some ⟨.unterminatedComment, ⟨5, 7⟩⟩ ∧
      (l.next .exprStart).1.Fits text 0 7 := by
  intro text l
  have s : Session text l [(l.next .operator).1] :=
    .rewind (.next (@Session.begin _ text 0 l rfl) .operator) List.mem_cons_self rfl
  exact ⟨s, by decide +kernel, by decide +kernel, by decide +kernel, (session_next s .exprStart).1⟩

end Lexer

end ActionScript
