import ActionScript.Proofs.Outcome

/-!
# Trees lose nothing

The tree of a parse is the text: its tokens, trivia included, follow on each other
from the first character to the last one, and behind them comes the end of the text, which stands
right under the root.

* `lossless_of_parseWithin`: all of that, for every tree of a parse.
-/

set_option autoImplicit false

namespace ActionScript

/-! ## Appending -/

theorem Progress.layAll_append (p : Progress) (ss ts : List Shape) :
    p.layAll (ss ++ ts) =
      ((p.layAll ss).1 ++ ((p.layAll ss).2.layAll ts).1, ((p.layAll ss).2.layAll ts).2) := by
  induction ss generalizing p with
  | nil => simp [Progress.layAll]
  | cons s ss ih => simp [Progress.layAll, ih]

theorem Tree.Node.tokensFrom_append (n : Tree.Node) (slot : Nat) (is js : List Item) :
    n.tokensFrom slot (is ++ js) =
      n.tokensFrom slot is ++ n.tokensFrom (slot + is.length) js := by
  induction is generalizing slot with
  | nil => simp [Tree.Node.tokensFrom]
  | cons i is ih =>
    simp only [List.cons_append, Tree.Node.tokensFrom, ih, List.append_assoc, List.length_cons]
    rw [Nat.add_assoc, Nat.add_comm 1]

/-! ## The end of the text -/

theorem Kind.ne_eof_of_isTrivia {k : Kind} (h : k.isTrivia = true) : k ≠ .eof := by
  rintro rfl
  cases h

/-- What is kept of a token that is not the end of the text is not either. -/
theorem Shape.Keeps.kind_ne_eof {t : Token} {s : Shape} (h : s.Keeps t) (ht : t.kind ≠ .eof) :
    s.kind ≠ .eof := by
  cases s with
  | node kind field children => exact h.elim
  | token kind field leading text trailing =>
    obtain ⟨-, -, -, rfl | hword⟩ := h
    · exact ht
    · rintro rfl
      cases hword.2.1

theorem Cluster.Shows.kind_ne_eof {c : Cluster} {offset : Nat} {s : Shape} (h : c.Shows offset s)
    (hs : s.kind ≠ .eof) : ∀ l ∈ c.leaves, l.kind ≠ .eof := by
  cases s with
  | node kind field children => exact h.elim
  | token kind field leading text trailing =>
    obtain ⟨hlead, hkind, -, -, -, htrail⟩ := h
    intro l hl
    rw [Cluster.leaves, List.mem_append, List.mem_cons] at hl
    rcases hl with hl | rfl | hl
    · exact Kind.ne_eof_of_isTrivia (hlead.isTrivia l hl)
    · rw [hkind]
      exact hs
    · exact Kind.ne_eof_of_isTrivia (htrail.isTrivia l hl)

namespace State.Outcome

variable {s : State} {text : Text} {modes : List Mode} {kids : List Shape} {last : Token}

/-- No token before the last one is the end of the text. -/
theorem tokens_kind_ne_eof [Alphabet] (h : s.Outcome text modes kids last) :
    ∀ t ∈ Shape.tokensAll kids, t.kind ≠ .eof := by
  intro t ht
  obtain ⟨token, htoken, hkeeps⟩ := exists_rel_of_mem h.keeps ht
  exact hkeeps.kind_ne_eof (h.ne_eof token htoken)

end State.Outcome

/-! ## Nodes over their text -/

namespace Tree.Node

variable {n : Tree.Node} {p : Progress}

/-- The tokens of a node whose children are laid out follow on each other and make up their
source. -/
theorem tokens_of_layAll {shapes : List Shape} (hchildren : n.children = (p.layAll shapes).1) :
    Leaf.Contiguous p.offset (n.tokens.map Tree.Token.leaf)
        (p.offset + (Shape.sourceAll shapes).size) ∧
      n.tokens.flatMap (fun t => t.leaf.text) = Shape.sourceAll shapes := by
  have hlaid := p.laid_layAll shapes
  rw [← hchildren] at hlaid
  have hoffset := hlaid.offset_eq
  rw [Shape.sourceAll_tokensAll] at hoffset
  refine ⟨?_, ?_⟩
  · rw [map_leaf_tokens, ← hoffset]
    exact hlaid.contiguous
  · have hflat := hlaid.flatMap_text
    rw [← map_leaf_tokens, Shape.sourceAll_tokensAll, List.flatMap_map] at hflat
    exact hflat

/-- **The last token of a node that ends with the end of the text is that**, and it is the only
one. -/
theorem last_of_layAll {kids : List Shape} {leading : List Trivia}
    (hchildren : n.children = (p.layAll (kids ++ [.token .eof none leading [] []])).1)
    (hne : ∀ t ∈ Shape.tokensAll kids, t.kind ≠ .eof) :
    ∃ before last, n.tokens = before ++ [last] ∧ (∀ t ∈ before, t.kind ≠ .eof) ∧
      last.kind = .eof ∧
      last.span = .point (p.offset +
        (Shape.sourceAll (kids ++ [.token .eof none leading [] []])).size) ∧
      n.elements.getLast? = some (.token last) := by
  have hlaid := p.laid_layAll kids
  have hoffset := hlaid.offset_eq
  obtain ⟨⟨hlead, hkind, -, hempty, hstart, htrail⟩, -⟩ :=
    (p.layAll kids).2.shows_cluster .eof none leading [] []
  rw [Progress.layAll_append] at hchildren
  simp only [Progress.layAll, Progress.lay] at hchildren
  generalize (p.layAll kids).1 = items at hlaid hchildren
  generalize ((p.layAll kids).2.cluster .eof none leading [] []).1 = c
    at hlead hkind hempty hstart htrail hchildren
  have htrailing : c.trailing = [] := by
    cases htr : c.trailing with
    | nil => rfl
    | cons l ls =>
      rw [htr] at htrail
      exact htrail.elim
  refine ⟨n.tokensFrom 0 items ++ c.leading.map n.trivia, n.token items.length c, ?_, ?_, hkind,
    ?_, ?_⟩
  · rw [tokens, hchildren, tokensFrom_append]
    simp [tokensFrom, tokensOf, clusterTokens, htrailing]
  · intro token htoken
    have hleaf := List.mem_map_of_mem (f := Tree.Token.leaf) htoken
    rw [List.map_append, map_leaf_tokensFrom, List.mem_append, List.mem_flatMap] at hleaf
    rcases hleaf with ⟨d, hd, hl⟩ | hl
    · obtain ⟨s, hs, offset, hshows⟩ := hlaid.exists_shows hd
      exact hshows.kind_ne_eof (hne s hs) _ hl
    · refine Kind.ne_eof_of_isTrivia (hlead.isTrivia _ ?_)
      simpa [trivia] using hl
  · rw [Shape.sourceAll_tokensAll] at hoffset
    have hsize : c.leaf.start = p.offset +
        (Shape.sourceAll (kids ++ [.token .eof none leading [] []])).size := by
      rw [hstart, hoffset, Shape.sourceAll_append]
      simp [Shape.sourceAll, Shape.source, Trivia.flatten, Nat.add_assoc]
    rw [← hsize]
    simp [Tree.Token.span, Leaf.span, token, hempty, Span.point]
  · simp [elements, hchildren, element]

end Tree.Node

/-! ## Every tree -/

/-- **A tree loses nothing.**  The tokens of the tree of a parse follow on each other from the first
character to the last and make up the text.  The last one is the end of the text, the only one of
its kind and without any text, right under a root that takes in the whole text. -/
theorem lossless_of_parseWithin [Alphabet] {limits : Limits} {text : Text} {p : Parse}
    (h : parseWithin limits text = .ok p) :
    p.tree.text = text ∧
      Leaf.Contiguous 0 (p.tree.tokens.map Tree.Token.leaf) text.size ∧
      p.tree.tokens.flatMap (fun t => t.leaf.text) = text ∧
      p.tree.root.kind = .sourceFile ∧ p.tree.root.fullSpan = ⟨0, text.size⟩ ∧
      ∃ before last, p.tree.tokens = before ++ [last] ∧
        (∀ t ∈ before, t.kind ≠ .eof) ∧ last.kind = .eof ∧ last.span = .point text.size ∧
        p.tree.root.elements.getLast? = some (.token last) := by
  obtain ⟨modes, kids, last, hout, htext, hkind, hfull, hchildren, -⟩ := exists_outcome h
  have hsource := hout.sourceAll_eq
  rw [hout.last_text.1, hout.last_text.2] at hsource hchildren
  have htokens := Tree.Node.tokens_of_layAll hchildren
  have hlast := Tree.Node.last_of_layAll hchildren hout.tokens_kind_ne_eof
  simp only [hsource, Nat.zero_add] at htokens hlast
  exact ⟨htext, htokens.1, htokens.2, hkind, hfull, hlast⟩

end ActionScript
