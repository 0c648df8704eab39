import ActionScript.Proofs.Semicolons.Trees
import ActionScript.Proofs.Sessions
import Mathlib.Data.List.TakeWhile

/-!
# Line breaks between tokens

Reading notes whether a line break stands in front of a token, and a tree looks for it among the
pieces of trivia.  Both tell what the text between two tokens holds, except that the tree overlooks
the line breaks in a block comment that holds no line feed.

* `Trivia.Tells`: a piece breaks a line if and only if there is a line break in it.
* `Tree.between`: the text between a token and the one before it.
* `lineBreaks_of_parseWithin`: **how line breaks are seen**, in every parse.
-/

set_option autoImplicit false

namespace ActionScript

/-! ## Pieces of trivia -/

namespace Trivia

/-- The piece breaks a line if and only if there is a line break in it. -/
def Tells (t : Trivia) : Prop := t.text.any isLineBreak = t.breaksLine

theorem tells_comment {cs : Text} {cut : Cut} (h : comment? cs = some cut) : cut.piece.Tells := by
  have hline (ds : Text) : (ds.takeWhile fun c => !isLineBreak c).any isLineBreak = false := by
    rw [List.any_eq_false]
    intro c hc
    simpa using List.mem_takeWhile_imp hc
  unfold comment? at h
  split at h
  · rw [← Option.some.inj h]
    exact hline ('/' :: '/' :: _)
  · split at h <;> rw [← Option.some.inj h] <;> rfl
  · cases h

theorem tells_blanks {cs : Text} {cut : Cut} (h : blanks? cs = some cut) : cut.piece.Tells := by
  unfold blanks? at h
  split at h
  · cases h
  · rename_i body hbody
    rw [← Option.some.inj h]
    refine List.any_eq_false.2 fun c hc hbreak => ?_
    have hblank := List.mem_takeWhile_imp hc
    rw [isBlank_eq_false_of_isLineBreak hbreak] at hblank
    cases hblank

theorem tells_lineBreak {cs : Text} {cut : Cut} (h : lineBreak? cs = some cut) :
    cut.piece.Tells := by
  unfold lineBreak? at h
  split at h
  · rw [← Option.some.inj h]
    rfl
  · split at h
    · rename_i hbreak
      rw [← Option.some.inj h]
      simp [Tells, breaksLine, hbreak]
    · cases h
  · cases h

theorem tells_leading {inCode : Bool} {cs : Text} {cut : Cut} (h : leading? inCode cs = some cut) :
    cut.piece.Tells := by
  rcases leading?_cases h with h | ⟨-, h⟩ | h
  · exact tells_lineBreak h
  · exact tells_comment h
  · exact tells_blanks h

theorem tells_trailing {cs : Text} {cut : Cut} (h : trailing? cs = some cut) : cut.piece.Tells := by
  rcases trailing?_cases h with ⟨h, -⟩ | h
  · exact tells_comment h
  · exact tells_blanks h

theorem any_isLineBreak_flatten {ts : List Trivia} (h : ∀ t ∈ ts, t.Tells) :
    (flatten ts).any isLineBreak = ts.any breaksLine := by
  rw [flatten, List.any_flatMap]
  induction ts with
  | nil => rfl
  | cons t ts ih =>
    rw [List.forall_mem_cons] at h
    rw [List.any_cons, List.any_cons, ih h.2, show t.text.any isLineBreak = t.breaksLine from h.1]

end Trivia

/-! ## Tokens -/

namespace Place

variable {p : Place} {mode : Mode} {modes : List Mode}

variable [Alphabet]

/-- Every piece around a token tells. -/
theorem tells_of_mem : ∀ t ∈ (p.next mode).1.leading ++ (p.next mode).1.trailing, t.Tells :=
  List.forall_mem_append.2
    ⟨mode.forall_leading Trivia.tells_leading _, mode.forall_trailing Trivia.tells_trailing _ _⟩

/-- There is a line break in front of a token if and only if it starts a line. -/
theorem any_isLineBreak_leading :
    (Trivia.flatten (p.next mode).1.leading).any isLineBreak = (p.next mode).1.startsLine :=
  Trivia.any_isLineBreak_flatten fun t ht => tells_of_mem t (List.mem_append_left _ ht)

/-- A token among those that are read lies behind the text of the others. -/
theorem exists_next_of_split {before behind : List Token} {t : Token}
    (h : (p.read modes).1 = before ++ t :: behind) :
    ∃ (q : Place) (mode : Mode), t = (q.next mode).1 ∧
      q.offset = p.offset + Text.size (before.flatMap Token.source) ∧
      p.rest = before.flatMap Token.source ++ q.rest := by
  induction modes generalizing p before with
  | nil =>
    cases before <;> cases h
  | cons mode modes ih =>
    rw [read_cons] at h
    cases before with
    | nil => exact ⟨p, mode, (List.cons.inj h).1.symm, rfl, rfl⟩
    | cons u before =>
      rw [List.cons_append, List.cons.injEq] at h
      obtain ⟨rfl, h⟩ := h
      obtain ⟨q, m, ht, hoffset, hrest⟩ := ih h
      refine ⟨q, m, ht, ?_, ?_⟩
      · rw [hoffset, next_offset, List.flatMap_cons, Text.size_append, Nat.add_assoc]
      · rw [List.flatMap_cons, List.append_assoc, ← hrest, next_append]

/-- The text between two tokens that are read: there is a line break in it if and only if the second
starts a line. -/
theorem exists_gap {text : Text} {before behind : List Token} {t : Token}
    (h : ((start text).read modes).1 = before ++ t :: behind) :
    ∃ head gap tail : Text, text = head ++ (gap ++ tail) ∧
      head.size = (before.getLast?.map fun last => last.span.stop).getD 0 ∧
      t.start + Text.size (Trivia.flatten t.leading) = head.size + gap.size ∧
      gap.any isLineBreak = t.startsLine := by
  obtain ⟨q, m, rfl, hoffset, hrest⟩ := exists_next_of_split h
  have hleading : (Trivia.flatten (q.next m).1.leading).any isLineBreak = (q.next m).1.startsLine :=
    any_isLineBreak_leading
  obtain ⟨tail, hnext⟩ : ∃ tail, q.rest = Trivia.flatten (q.next m).1.leading ++ tail := by
    rw [← q.next_append m, Token.source, List.append_assoc, List.append_assoc]
    exact ⟨_, rfl⟩
  have hstart : (q.next m).1.start = Text.size (before.flatMap Token.source) :=
    hoffset.trans (Nat.zero_add _)
  rcases List.eq_nil_or_concat before with rfl | ⟨before, v, rfl⟩
  · exact ⟨[], _, tail, hrest.trans (congrArg _ hnext), rfl, by simp [hstart], hleading⟩
  · rw [List.concat_eq_append, List.append_assoc, List.singleton_append] at h
    obtain ⟨r, n, rfl, hoffset, -⟩ := exists_next_of_split h
    have htrailing : (Trivia.flatten (r.next n).1.trailing).any isLineBreak = false := by
      rw [Trivia.any_isLineBreak_flatten fun t ht => tells_of_mem t (List.mem_append_right _ ht),
        List.any_eq_false]
      simpa using trailing_not_breaksLine
    refine
      ⟨before.flatMap Token.source ++ (Trivia.flatten (r.next n).1.leading ++ (r.next n).1.text),
        Trivia.flatten (r.next n).1.trailing ++ Trivia.flatten (q.next m).1.leading, tail,
        ?_, ?_, ?_, ?_⟩
    · rw [show text = _ from hrest, hnext]
      simp [Token.source]
    · have hstart : (r.next n).1.start = Text.size (before.flatMap Token.source) :=
        hoffset.trans (Nat.zero_add _)
      simp [Token.span, hstart, Nat.add_assoc]
    · rw [hstart]
      simp [Token.source, Nat.add_assoc]
    · rw [List.any_append, htrailing, hleading, Bool.false_or]

end Place

namespace Cluster.Renders

variable {t : Token} {u : Tree.Token} (h : Cluster.Renders t u.cluster)
include h

theorem start_eq : u.span.start = t.start + Text.size (Trivia.flatten t.leading) :=
  congrArg Span.start h.span

/-- The tree sees what was read: a line break stands among the pieces in front of the token. -/
theorem startsLine_eq : u.startsLine = t.startsLine := h.leading.any_breaksLine

end Cluster.Renders

/-! ## The text between two tokens -/

namespace Tree

/-- The text between the last of some tokens and the next one; from the beginning of the text if
there are none. -/
def between (t : Tree) (before : List Token) (next : Token) : Text :=
  t.slice ⟨(before.getLast?.map fun last => last.span.stop).getD 0, next.span.start⟩

theorem slice_append {t : Tree} {before inner behind : Text}
    (h : t.text = before ++ (inner ++ behind)) :
    t.slice ⟨before.size, before.size + inner.size⟩ = inner := by
  rw [slice, h, Text.splitAt?_append]
  simp [Text.splitAt?_append]

/-- The line breaks in front of the token are all in block comments, and these hold no line
feeds. -/
def Token.breaksInComments (t : Token) : Prop :=
  ∀ l ∈ t.leading, l.breaksLine = true → l.kind = .blockComment ∧ l.text.contains '\n' = false

theorem Token.hasLineBreakBefore_iff (t : Token) :
    t.hasLineBreakBefore = true ↔ t.startsLine = true ∧ ¬t.breaksInComments := by
  have hpiece (l : Leaf) :
      (l.kind == .newline || (l.kind == .blockComment && l.text.contains '\n')) = true ↔
      l.breaksLine = true ∧ ¬(l.kind = .blockComment ∧ l.text.contains '\n' = false) := by
    rw [Leaf.breaksLine]
    by_cases hline : l.kind = .newline
    · simp [hline]
    · by_cases hcomment : l.kind = .blockComment
      · have hfeed : '\n' ∈ l.text → l.text.any isLineBreak = true := fun h =>
          List.any_eq_true.2 ⟨'\n', h, rfl⟩
        simpa [hcomment] using fun h => List.any_eq_true.1 (hfeed h)
      · simp [hline, hcomment]
  rw [hasLineBreakBefore, List.any_eq_true, startsLine, List.any_eq_true, breaksInComments]
  constructor
  · rintro ⟨l, hl, h⟩
    obtain ⟨hbreaks, hfeed⟩ := (hpiece l).1 h
    exact ⟨⟨l, hl, hbreaks⟩, fun hall => hfeed (hall l hl hbreaks)⟩
  · rintro ⟨-, h⟩
    simp only [not_forall] at h
    obtain ⟨l, hl, hbreaks, hfeed⟩ := h
    exact ⟨l, hl, (hpiece l).2 ⟨hbreaks, hfeed⟩⟩

end Tree

namespace Tree

/-- **There is a line break between two tokens if and only if the second starts a line.** -/
theorem any_isLineBreak_between [Alphabet] {tree : Tree} {modes : List Mode}
    {before behind : List Tree.Token}
    {u : Tree.Token}
    (h : List.Forall₂ (fun t u => Cluster.Renders t (Tree.Token.cluster u))
      ((Place.start tree.text).read modes).1 (before ++ u :: behind)) :
    (tree.between before u).any isLineBreak = u.startsLine := by
  obtain ⟨rs, qs, hbefore, hbehind, hread⟩ : ∃ rs qs,
      List.Forall₂ (fun t u => Cluster.Renders t (Tree.Token.cluster u)) rs before ∧
      List.Forall₂ (fun t u => Cluster.Renders t (Tree.Token.cluster u)) qs (u :: behind) ∧
      ((Place.start tree.text).read modes).1 = rs ++ qs :=
    ⟨_, _, List.forall₂_take_append _ _ _ h, List.forall₂_drop_append _ _ _ h,
      (List.take_append_drop _ _).symm⟩
  obtain ⟨t, qs, hu, -, rfl⟩ := List.forall₂_cons_right_iff.1 hbehind
  obtain ⟨head, gap, tail, htext, hhead, hgap, hbreak⟩ := Place.exists_gap hread
  have hlast : (before.getLast?.map fun last => last.span.stop).getD 0 = head.size := by
    rw [hhead]
    rw [List.getLast?_eq_head?_reverse, List.getLast?_eq_head?_reverse]
    have hreverse := List.rel_reverse hbefore
    generalize rs.reverse = rs, before.reverse = before at hreverse
    cases hreverse with
    | nil => rfl
    | cons hv _ => exact congrArg Span.stop hv.span
  rw [between, hlast, hu.start_eq, hgap, slice_append htext, hbreak, hu.startsLine_eq]

end Tree

/-! ## Every parse -/

/-- **How line breaks are seen.**  The tokens of a tree start a line as they did when they were
read, and that is so if and only if there is a line break in the text between the token before, or
the beginning of the text, and the token itself.  The pieces of trivia in the tree tell of that line
break, unless all line breaks in front of the token are in block comments without a line feed. -/
theorem lineBreaks_of_parseWithin [Alphabet] {limits : Limits} {text : Text} {p : Parse}
    (h : parseWithin limits text = .ok p) :
    (∃ modes, List.Forall₂ (fun t u => Cluster.Renders t (Tree.Token.cluster u) ∧
      u.startsLine = t.startsLine)
      ((Place.start text).read modes).1 p.tree.root.significantTokens) ∧
    ∀ before u behind, p.tree.root.significantTokens = before ++ u :: behind →
      u.startsLine = (p.tree.between before u).any isLineBreak ∧
      (u.hasLineBreakBefore = true ↔
        (p.tree.between before u).any isLineBreak = true ∧ ¬u.breaksInComments) := by
  obtain ⟨⟨modes, hrenders⟩, -⟩ := significantTokens_refine h
  refine ⟨⟨modes, hrenders.imp fun _ _ h => ⟨h, h.startsLine_eq⟩⟩, fun before u behind hsplit => ?_⟩
  obtain ⟨-, -, -, -, htext, -⟩ := exists_outcome h
  rw [← htext, hsplit] at hrenders
  have hbetween := Tree.any_isLineBreak_between hrenders
  exact ⟨hbetween.symm, by rw [hbetween]; exact u.hasLineBreakBefore_iff⟩

/-- A line break behind a comment, and one in a comment. -/
theorem lineBreaks_of_parseWithin_comments :
    ∃ p, parseWithin {} "a // b\nc /* d\n */ e".toList = .ok p ∧
    (∃ modes, List.Forall₂ (fun t u => Cluster.Renders t (Tree.Token.cluster u) ∧
      u.startsLine = t.startsLine)
      ((Place.start "a // b\nc /* d\n */ e".toList).read modes).1 p.tree.root.significantTokens) ∧
    ∀ before u behind, p.tree.root.significantTokens = before ++ u :: behind →
      u.startsLine = (p.tree.between before u).any isLineBreak ∧
      (u.hasLineBreakBefore = true ↔
        (p.tree.between before u).any isLineBreak = true ∧ ¬u.breaksInComments) := by
  obtain ⟨p, hp, -⟩ :=
    exists_parseWithin (Limits.endless_maxDepth 256) "a // b\nc /* d\n */ e".toList
  exact ⟨p, hp, lineBreaks_of_parseWithin hp⟩

/-- The pieces of trivia do not tell of a carriage return in a comment. -/
theorem overlooked_carriageReturn : ∃ p, parseWithin {} "a/*\r*/b".toList = .ok p ∧
    ∃ before u behind, p.tree.root.significantTokens = before ++ u :: behind ∧
      u.startsLine = true ∧ (p.tree.between before u).any isLineBreak = true ∧
      u.hasLineBreakBefore = false := by
  obtain ⟨p, hp, -⟩ := exists_parseWithin (Limits.endless_maxDepth 256) "a/*\r*/b".toList
  have hfound : ((parseWithin {} "a/*\r*/b".toList).toOption.any fun p =>
      p.tree.root.significantTokens.head?.any fun t =>
        p.tree.root.significantTokens.tail.head?.any fun u =>
        u.startsLine && (p.tree.between [t] u).any isLineBreak &&
          !u.hasLineBreakBefore) = true := by
    decide +kernel
  rw [hp] at hfound
  simp only [Except.toOption, Option.any_some, Option.any_eq_true, Bool.and_eq_true,
    Bool.not_eq_true'] at hfound
  obtain ⟨t, ht, u, hu, ⟨hline, hbetween⟩, hoverlooked⟩ := hfound
  obtain ⟨ts, htokens⟩ := List.head?_eq_some_iff.1 ht
  rw [htokens, List.tail_cons] at hu
  obtain ⟨behind, rfl⟩ := List.head?_eq_some_iff.1 hu
  exact ⟨p, hp, [t], u, behind, htokens, hline, hbetween, hoverlooked⟩

end ActionScript
