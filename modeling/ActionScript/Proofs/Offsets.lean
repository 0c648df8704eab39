import ActionScript.Proofs.Comments
import ActionScript.Proofs.LineBreaks
import ActionScript.Proofs.Lossless
import ActionScript.Tree.Search

/-!
# Looking tokens up by offset

The tokens of a tree lie one behind the other, and none but the end of the text is empty.  So the
first token that ends behind an offset of the text is one that touches it, and the only other one
that can is the token right before.  At the end of the text no token is left that ends behind the
offset, and the lookup gives nothing, not even the token that ends there.

* `Tree.Token.Touches`: a token that is not empty touches the offsets of its closed span.
* `Leaf.Contiguous.exists_split`: the first token that ends behind an offset begins at it or before.
* `Tree.Node.tokensAt_of_contiguous`: **which tokens are found in a row**.
* `touching_of_parseWithin`: which tokens are found in the tree of a text.
-/

set_option autoImplicit false

namespace ActionScript

/-! ## Rows of leaves -/

namespace Leaf.Contiguous

variable {ls ms : List Leaf} {start stop : Nat}

theorem of_append (h : Leaf.Contiguous start (ls ++ ms) stop) :
    ∃ mid, Leaf.Contiguous start ls mid ∧ Leaf.Contiguous mid ms stop := by
  induction ls generalizing start with
  | nil => exact ⟨start, rfl, h⟩
  | cons l ls ih =>
    obtain ⟨mid, hfront, hbehind⟩ := ih h.2
    exact ⟨mid, ⟨h.1, hfront⟩, hbehind⟩

theorem start_le_stop (h : Leaf.Contiguous start ls stop) : start ≤ stop := by
  induction ls generalizing start with
  | nil => exact Nat.le_of_eq h
  | cons l ls ih => exact Nat.le_trans (Nat.le_add_right _ _) (ih h.2)

/-- A leaf of a row lies within it. -/
theorem within_row (h : Leaf.Contiguous start ls stop) {l : Leaf} (hl : l ∈ ls) :
    start ≤ l.span.start ∧ l.span.stop ≤ stop := by
  obtain ⟨front, behind, rfl⟩ := List.append_of_mem hl
  obtain ⟨mid, hfront, hstart, hbehind⟩ := h.of_append
  have hfirst := hfront.start_le_stop
  have hlast := hbehind.start_le_stop
  simp only [Leaf.span, hstart]
  exact ⟨hfirst, hlast⟩

/-- A row reaches as far as the texts of its leaves. -/
theorem size_flatMap (h : Leaf.Contiguous start ls stop) :
    start + Text.size (ls.flatMap Leaf.text) = stop := by
  induction ls generalizing start with
  | nil => exact h
  | cons l ls ih =>
    rw [List.flatMap_cons, Text.size_append, ← Nat.add_assoc]
    exact ih h.2

end Leaf.Contiguous

namespace Tree

/-- A token touches the offsets of its closed span, if it has any text. -/
def Token.Touches (offset : Nat) (t : Token) : Prop :=
  t.leaf.text ≠ [] ∧ t.span.start ≤ offset ∧ offset ≤ t.span.stop

instance (offset : Nat) (t : Token) : Decidable (t.Touches offset) :=
  inferInstanceAs (Decidable (_ ∧ _ ∧ _))

theorem Token.start_lt_stop {t : Token} (h : t.leaf.text ≠ []) : t.span.start < t.span.stop :=
  Nat.lt_add_of_pos_right (Text.size_pos h)

variable {ts : List Token} {start stop offset : Nat}

/-- **The first token that ends behind an offset of the row** begins at it or before. -/
theorem exists_split (h : Leaf.Contiguous start (ts.map Token.leaf) stop) (hstart : start ≤ offset)
    (hstop : offset < stop) :
    ∃ passed right behind, ts = passed ++ right :: behind ∧ (∀ t ∈ passed, t.span.stop ≤ offset) ∧
      right.span.start ≤ offset ∧ offset < right.span.stop := by
  induction ts generalizing start with
  | nil =>
    obtain rfl : start = stop := h
    omega
  | cons t ts ih =>
    obtain ⟨hfirst, hrest⟩ := h
    have hspan : t.span = ⟨start, start + t.leaf.text.size⟩ := by
      rw [Token.span, Leaf.span, hfirst]
    by_cases hpassed : t.span.stop ≤ offset
    · rw [hspan] at hpassed
      obtain ⟨passed, right, behind, rfl, hbefore, hright⟩ := ih hrest hpassed
      refine ⟨t :: passed, right, behind, rfl, ?_, hright⟩
      rintro u (_ | ⟨_, hu⟩)
      · rwa [hspan]
      · exact hbefore u hu
    · refine ⟨[], t, ts, rfl, by simp, ?_, by omega⟩
      rwa [hspan]

/-- Tokens that end before an offset or begin behind it do not touch it. -/
theorem filter_touches_eq_nil (h : ∀ t ∈ ts, t.span.stop < offset ∨ offset < t.span.start) :
    ts.filter (Token.Touches offset ·) = [] := by
  rw [List.filter_eq_nil_iff]
  intro t ht htouch
  obtain ⟨-, hstart, hstop⟩ := of_decide_eq_true htouch
  have := h t ht
  omega

namespace Node

variable {n : Node}

/-- What is found where the tokens that end before the offset or at it come first. -/
theorem tokensAt_of_split {passed behind : List Token} {right : Token}
    (htokens : n.tokens = passed ++ right :: behind) (hpassed : ∀ t ∈ passed, t.span.stop ≤ offset)
    (hstart : right.span.start ≤ offset) (hstop : offset < right.span.stop) :
    n.tokensAt offset =
      (passed.getLast?.filter (·.span.stop == offset)).elim (.single right) (.between · right) := by
  have htake :
      (passed ++ right :: behind).takeWhile (fun t => decide (t.span.stop ≤ offset)) = passed := by
    rw [List.takeWhile_append_of_pos (by simpa using hpassed)]
    simp [hstop]
  have hdrop : (passed ++ right :: behind).dropWhile (fun t => decide (t.span.stop ≤ offset)) =
      right :: behind := by
    rw [List.dropWhile_append_of_pos (by simpa using hpassed)]
    simp [hstop]
  simp only [tokensAt, htokens, htake, hdrop, Nat.not_lt.2 hstart, if_false]
  cases passed.getLast? with
  | none => rfl
  | some left => by_cases hend : left.span.stop = offset <;> simp [Option.filter, hend]

/-- At the end of a row, and behind it, no token is found. -/
theorem tokensAt_of_stop_le (h : Leaf.Contiguous start (n.tokens.map Token.leaf) stop)
    (hstop : stop ≤ offset) : n.tokensAt offset = .none := by
  have hall : ∀ t ∈ n.tokens, decide (t.span.stop ≤ offset) = true := fun t ht =>
    decide_eq_true (Nat.le_trans (h.within_row (List.mem_map_of_mem ht)).2 hstop)
  have hdrop : n.tokens.dropWhile _ = [] := List.dropWhile_eq_nil_iff.2 hall
  rw [tokensAt, hdrop]

/-- **The tokens found in a row** whose only empty tokens lie at its end.  In front of that end they
are those that touch the offset: two where a token ends, else one. -/
theorem tokensAt_of_contiguous (h : Leaf.Contiguous start (n.tokens.map Token.leaf) stop)
    (hempty : ∀ t ∈ n.tokens, t.leaf.text = [] → t.span.start = stop) (hstart : start ≤ offset)
    (hstop : offset < stop) :
    (n.tokensAt offset).toList = n.tokens.filter (Token.Touches offset ·) ∧
      ((∃ t ∈ n.tokens, t.span.stop = offset) ∧
        (∃ left right, n.tokensAt offset = .between left right) ∨
        (∀ t ∈ n.tokens, t.span.stop ≠ offset) ∧ ∃ t, n.tokensAt offset = .single t) := by
  obtain ⟨passed, right, behind, htokens, hpassed, hleft, hright⟩ := exists_split h hstart hstop
  have hlookup := tokensAt_of_split htokens hpassed hleft hright
  rw [htokens] at h hempty ⊢
  rw [List.map_append, List.map_cons] at h
  obtain ⟨mid, hfront, hmid, hmore⟩ := h.of_append
  -- a token that begins in front of the end of the row is not empty
  have hproper : ∀ t ∈ passed ++ right :: behind, t.span.start < stop → t.leaf.text ≠ [] :=
    fun t ht hlt htext => absurd (hempty t ht htext) (Nat.ne_of_lt hlt)
  have htouch : right.Touches offset :=
    ⟨hproper right (by simp) (Nat.lt_of_le_of_lt hleft hstop), hleft, Nat.le_of_lt hright⟩
  have hbehind : ∀ t ∈ behind, offset < t.span.start := fun t ht =>
    Nat.lt_of_lt_of_le (by rwa [Token.span, Leaf.span, hmid] at hright)
      (hmore.within_row (List.mem_map_of_mem ht)).1
  have hnone := filter_touches_eq_nil fun t ht => .inr (hbehind t ht)
  have hlater : ∀ t ∈ right :: behind, t.span.stop ≠ offset := by
    rintro t (_ | ⟨_, ht⟩)
    · exact Nat.ne_of_gt hright
    · exact Nat.ne_of_gt (Nat.lt_of_lt_of_le (hbehind t ht) (Nat.le_add_right _ _))
  rw [List.filter_append, List.filter_cons_of_pos (by simpa using htouch), hnone]
  rcases passed.eq_nil_or_concat with rfl | ⟨front, left, rfl⟩
  · exact ⟨by rw [hlookup]; rfl, .inr ⟨hlater, right, hlookup⟩⟩
  · rw [List.concat_eq_append] at *
    rw [List.map_append] at hfront
    obtain ⟨edge, hrow, hedge, -⟩ := hfront.of_append
    have hlast : left.span.stop ≤ offset := hpassed left (by simp)
    have hlt : left.span.start < left.span.stop :=
      Token.start_lt_stop (hproper left (by simp)
        (Nat.lt_of_le_of_lt (Nat.le_trans (Nat.le_add_right _ _) hlast) hstop))
    have hbefore : ∀ t ∈ front, t.span.stop < offset := fun t ht => by
      have hend : t.span.stop ≤ edge := (hrow.within_row (List.mem_map_of_mem ht)).2
      have hbegin : left.span.start = edge := hedge
      omega
    rw [List.getLast?_concat] at hlookup
    rw [List.filter_append, filter_touches_eq_nil fun t ht => .inl (hbefore t ht), List.nil_append]
    by_cases hend : left.span.stop = offset
    · have htouches : left.Touches offset :=
        ⟨hproper left (by simp) (by omega), by omega, Nat.le_of_eq hend.symm⟩
      have hbetween : n.tokensAt offset = .between left right := by
        simpa [Option.filter, hend] using hlookup
      refine ⟨?_, .inl ⟨⟨left, by simp, hend⟩, left, right, hbetween⟩⟩
      rw [hbetween, List.filter_cons_of_pos (by simpa using htouches)]
      rfl
    · have hsingle : n.tokensAt offset = .single right := by
        simpa [Option.filter, hend] using hlookup
      refine ⟨?_, .inr ⟨fun t ht => ?_, right, hsingle⟩⟩
      · have hleft : [left].filter (Tree.Token.Touches offset ·) = [] :=
          filter_touches_eq_nil (by simp; omega)
        rw [hsingle, hleft]
        rfl
      · rcases List.mem_append.1 ht with ht | ht
        · rcases List.mem_append.1 ht with ht | ht
          · exact Nat.ne_of_lt (hbefore t ht)
          · rwa [List.mem_singleton.1 ht]
        · exact hlater t ht

end Node

end Tree

/-! ## The tree of a text -/

section

variable [Alphabet]

/-- **A token without text is the end of the text.** -/
theorem Tree.kind_eq_eof_of_text {limits : Limits} {text : Text} {p : Parse}
    (h : parseWithin limits text = .ok p) {u : Tree.Token} (hu : u ∈ p.tree.tokens)
    (hempty : u.leaf.text = []) : u.kind = .eof := by
  obtain ⟨modes, hrenders, -⟩ := exists_renders h
  have hleaf : u.leaf ∈ (Item.clustersAll p.tree.root.children).flatMap Cluster.leaves := by
    rw [← Tree.Node.map_leaf_tokens]
    exact List.mem_map_of_mem hu
  obtain ⟨c, hc, hl⟩ := List.mem_flatMap.1 hleaf
  obtain ⟨t, ht, hrender⟩ := exists_rel_of_mem hrenders hc
  obtain ⟨q, mode, rfl⟩ := Place.exists_next_of_mem_read ht
  rw [Cluster.leaves, List.mem_append, List.mem_cons] at hl
  rcases hl with hl | hl | hl
  · obtain ⟨before, piece, behind, hpieces, -, htext, -⟩ := hrender.leading.exists_piece hl
    have hmem : piece ∈ (q.next mode).1.leading := hpieces ▸ List.mem_append_cons_self
    exact absurd (htext ▸ hempty) (mode.leading_ne _ piece hmem)
  · rw [hl, hrender.text] at hempty
    have hkind : (q.next mode).1.kind = .eof := by
      by_contra hne
      exact Place.next_text_ne hne hempty
    rw [Tree.Token.kind, hl]
    rcases hrender.kind with hsame | hword
    · rw [hsame, hkind]
    · exact absurd hkind hword.kind_ne_eof
  · obtain ⟨before, piece, behind, hpieces, -, htext, -⟩ := hrender.trailing.exists_piece hl
    have hmem : piece ∈ (q.next mode).1.trailing := hpieces ▸ List.mem_append_cons_self
    exact absurd (htext ▸ hempty) (mode.trailing_ne _ _ piece hmem)

/-- The tokens of a tree lie one behind the other and make up the text, and none is empty but at its
end. -/
theorem Tree.row_of_parseWithin {limits : Limits} {text : Text} {p : Parse}
    (h : parseWithin limits text = .ok p) :
    Leaf.Contiguous 0 (p.tree.tokens.map Tree.Token.leaf) text.size ∧
      p.tree.text = (p.tree.tokens.map Tree.Token.leaf).flatMap Leaf.text ∧
      ∀ t ∈ p.tree.tokens, t.leaf.text = [] → t.span.start = text.size := by
  obtain ⟨modes, kids, last, hout, htext, -, -, hchildren, -⟩ := exists_outcome h
  have hsource := hout.sourceAll_eq
  rw [hout.last_text.1, hout.last_text.2] at hsource hchildren
  have htokens := Tree.Node.tokens_of_layAll hchildren
  obtain ⟨front, final, hsplit, hne, -, hspan, -⟩ :=
    Tree.Node.last_of_layAll hchildren hout.tokens_kind_ne_eof
  simp only [hsource, Nat.zero_add] at htokens hspan
  refine ⟨htokens.1, by rw [htext, List.flatMap_map]; exact htokens.2.symm, fun t ht hempty => ?_⟩
  have heof := Tree.kind_eq_eof_of_text h ht hempty
  have hmem : t ∈ front ++ [final] := hsplit ▸ ht
  rcases List.mem_append.1 hmem with hmem | hmem
  · exact absurd heof (hne t hmem)
  · rw [List.mem_singleton.1 hmem, hspan]
    rfl

/-- A token has the text that lies where it does. -/
theorem Tree.slice_span {limits : Limits} {text : Text} {p : Parse}
    (h : parseWithin limits text = .ok p)
    {u : Tree.Token} (hu : u ∈ p.tree.tokens) : p.tree.slice u.span = u.leaf.text := by
  obtain ⟨hrow, htext, -⟩ := Tree.row_of_parseWithin h
  obtain ⟨front, behind, htokens⟩ := List.append_of_mem hu
  rw [htokens, List.map_append, List.map_cons] at hrow htext
  obtain ⟨mid, hfront, hstart, -⟩ := hrow.of_append
  have hsize := hfront.size_flatMap
  rw [Nat.zero_add] at hsize
  rw [List.flatMap_append, List.flatMap_cons] at htext
  rw [Tree.Token.span, Leaf.span, hstart, ← hsize]
  exact Tree.slice_append htext

/-- **Which tokens are found at an offset.**  In front of the end of the text they are the tokens
with text whose closed span holds the offset, in source order: two where a token ends, and one
elsewhere, at the beginning too.  At the end of the text, and behind it, none is found. -/
theorem touching_of_parseWithin {limits : Limits} {text : Text} {p : Parse}
    (h : parseWithin limits text = .ok p) (offset : Nat) :
    (offset < text.size →
      (p.tree.root.tokensAt offset).toList = p.tree.tokens.filter (Tree.Token.Touches offset ·) ∧
      ((∃ t ∈ p.tree.tokens, t.span.stop = offset) ∧
          (∃ left right, p.tree.root.tokensAt offset = .between left right) ∨
        (∀ t ∈ p.tree.tokens, t.span.stop ≠ offset) ∧
          ∃ t, p.tree.root.tokensAt offset = .single t)) ∧
    (text.size ≤ offset → p.tree.root.tokensAt offset = .none) := by
  obtain ⟨hrow, -, hempty⟩ := Tree.row_of_parseWithin h
  exact ⟨Tree.Node.tokensAt_of_contiguous hrow hempty (Nat.zero_le offset),
    Tree.Node.tokensAt_of_stop_le hrow⟩

end

/-- A space between two names. -/
theorem touching_of_parseWithin_space : ∃ p, parseWithin {} "a b".toList = .ok p ∧
    (p.tree.root.tokensAt 1).toList = p.tree.tokens.filter (Tree.Token.Touches 1 ·) := by
  obtain ⟨p, hp, -⟩ := exists_parseWithin (Limits.endless_maxDepth 256) "a b".toList
  exact ⟨p, hp, ((touching_of_parseWithin hp 1).1 (by decide)).1⟩

/-- At the end of a text, where its last token ends, nothing is found. -/
theorem untouched_at_end : ∃ p, parseWithin {} "a".toList = .ok p ∧
    (∃ t ∈ p.tree.tokens, t.Touches 1) ∧ p.tree.root.tokensAt 1 = .none := by
  obtain ⟨p, hp, -⟩ := exists_parseWithin (Limits.endless_maxDepth 256) "a".toList
  have hfound : ((parseWithin {} "a".toList).toOption.any fun p =>
      p.tree.tokens.any fun t => decide (t.Touches 1)) = true := by
    decide +kernel
  rw [hp] at hfound
  obtain ⟨t, ht, htouch⟩ := List.any_eq_true.1 hfound
  exact ⟨p, hp, ⟨t, ht, of_decide_eq_true htouch⟩,
    Tree.Node.tokensAt_of_stop_le (Tree.row_of_parseWithin hp).1 (by decide)⟩

end ActionScript
