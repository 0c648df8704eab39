import ActionScript.Proofs.Outcome

/-!
# The tokens of a tree are those that were read

The parser reads one token in several modes, looks ahead and relabels words as keywords without
looking at them again.  Still its tree has the tokens that are read one after the other, each in one
mode, without ever going back.

* `Cluster.Renders`: a token of a tree is one that was read.
* `renders_of_laid`: what was kept of the tokens renders them once it is laid out.
* `significantTokens_refine`: **the tokens of a tree refine those that are read.**
-/

set_option autoImplicit false

namespace ActionScript

/-! ## One token -/

/-- A token in its place renders one that was read: it lies where that was read, with the same text
and the same pieces around it, under the same kind or under that of the keyword it is the word
for. -/
structure Cluster.Renders (t : Token) (c : Cluster) : Prop where
  leading : Leaf.ShowPieces t.start t.leading c.leading
  span : c.leaf.span = t.span
  text : c.leaf.text = t.text
  trailing : Leaf.ShowPieces t.span.stop t.trailing c.trailing
  kind : c.leaf.kind = t.kind ∨ t.IsWordFor c.leaf.kind

/-- What is kept of a token renders it, laid out where it was read. -/
theorem Cluster.Shows.renders {t : Token} {s : Shape} {c : Cluster} (h : c.Shows t.start s)
    (hkeeps : s.Keeps t) : c.Renders t := by
  cases s with
  | node kind field children => exact hkeeps.elim
  | token kind field leading text trailing =>
    obtain ⟨rfl, rfl, rfl, hkind⟩ := hkeeps
    obtain ⟨hlead, rfl, -, htext, hstart, htrail⟩ := h
    refine ⟨hlead, ?_, htext, htrail, hkind⟩
    rw [Leaf.span, Token.span, hstart, htext]

/-- A keyword is no trivia. -/
theorem Token.IsWordFor.not_trivia {t : Token} {keyword : Kind} (h : t.IsWordFor keyword) :
    keyword.isTrivia = false := by
  obtain ⟨w, hw, -⟩ := Kind.eq_of_spells h.2.2
  exact (Kind.spelling_cases (by simp [hw])).1

/-- What is kept of a token that was read is no trivia. -/
theorem Shape.Keeps.not_trivia {t : Token} {s : Shape} (h : s.Keeps t)
    (ht : t.kind.isTrivia = false) : s.kind.isTrivia = false := by
  cases s with
  | node kind field children => exact h.elim
  | token kind field leading text trailing =>
    obtain ⟨-, -, -, rfl | hword⟩ := h
    · exact ht
    · exact hword.not_trivia

/-- A token of a kind with a spelling is spelled so, if that holds of the one it renders. -/
theorem Cluster.Renders.text_eq {t : Token} {c : Cluster} (h : c.Renders t)
    (ht : ∀ w, t.kind.spelling = some w → t.text = w.toList) {w : String}
    (hw : c.leaf.kind.spelling = some w) : c.leaf.text = w.toList := by
  rw [h.text]
  rcases h.kind with hkind | hword
  · exact ht w (hkind ▸ hw)
  · obtain ⟨v, hv, htext⟩ := Kind.eq_of_spells hword.2.2
    obtain rfl : v = w := Option.some.inj (hv.symm.trans hw)
    exact htext

/-! ## All tokens -/

section

variable [Alphabet]

theorem Place.exists_next_of_mem_read {p : Place} {modes : List Mode} {t : Token}
    (h : t ∈ (p.read modes).1) : ∃ (q : Place) (mode : Mode), t = (q.next mode).1 := by
  induction modes generalizing p with
  | nil => cases h
  | cons mode modes ih =>
    rw [read_cons, List.mem_cons] at h
    rcases h with rfl | h
    · exact ⟨p, mode, rfl⟩
    · exact ih h

/-- **Laid out from where the reading began, what was kept of the tokens renders them.** -/
theorem renders_of_laid {p : Place} {modes : List Mode} {ss : List Shape} {cs : List Cluster}
    {stop : Nat} (hkeeps : List.Forall₂ Shape.Keeps (p.read modes).1 ss)
    (hlaid : Laid p.offset ss cs stop) : List.Forall₂ Cluster.Renders (p.read modes).1 cs := by
  induction modes generalizing p ss cs with
  | nil =>
    obtain rfl : ss = [] := by
      cases hkeeps
      rfl
    obtain rfl : cs = [] := by
      cases hlaid
      rfl
    exact .nil
  | cons mode modes ih =>
    rw [Place.read_cons] at hkeeps ⊢
    cases hkeeps with
    | cons hkeep hkeeps =>
      cases hlaid with
      | cons hshows hlaid =>
        -- the next token is laid out where the reading went on
        have hoffset : p.offset + (p.next mode).1.source.size = (p.next mode).2.offset :=
          (p.next_offset mode).symm
        rw [hkeep.source_eq, hoffset] at hlaid
        exact .cons (hshows.renders hkeep) (ih hkeeps hlaid)

/-- A parse reads one token after the other up to the end of the text, and keeps them all. -/
theorem State.Outcome.keeps_all {s : State} {text : Text} {modes : List Mode} {kids : List Shape}
    {last : Token} (h : s.Outcome text modes kids last) :
    List.Forall₂ Shape.Keeps ((Place.start text).read (modes ++ [.operator])).1
      (Shape.tokensAll (kids ++ [.token .eof none last.leading last.text last.trailing])) := by
  have hlast : Shape.Keeps (((Place.start text).read modes).2.next .operator).1
      (.token .eof none last.leading last.text last.trailing) := by
    rw [← h.last_eq]
    exact ⟨rfl, rfl, rfl, .inl h.last_kind.symm⟩
  rw [Place.read_append, Shape.tokensAll_append]
  refine List.rel_append h.keeps ?_
  simpa using hlast

/-- The clusters of the tree of a parse render the tokens that are read in some modes, and what is
reported on tokens are the flaws of these. -/
theorem exists_renders_reports {limits : Limits} {text : Text} {p : Parse}
    (h : parseWithin limits text = .ok p) :
    ∃ modes, List.Forall₂ Cluster.Renders ((Place.start text).read modes).1
        (Item.clustersAll p.tree.root.children) ∧
      (p.diagnostics.filter fun d => d.cause.category == .lexical) =
        ((Place.start text).read modes).1.filterMap Token.report? ∧
      ∀ c ∈ Item.clustersAll p.tree.root.children, c.Proper := by
  obtain ⟨modes, kids, last, hout, -, -, -, hchildren, hdiagnostics⟩ := exists_outcome h
  have hkeeps := hout.keeps_all
  have hlaid := Progress.laid_layAll { nodes := 1 }
    (kids ++ [.token .eof none last.leading last.text last.trailing])
  rw [← hchildren] at hlaid
  refine ⟨modes ++ [.operator], ?_, ?_, fun c hc => ?_⟩
  · exact renders_of_laid hkeeps hlaid
  · rw [← hout.reports, hdiagnostics, State.tokenReports]
  · obtain ⟨s, hs, offset, hshows⟩ := hlaid.exists_shows hc
    obtain ⟨t, ht, hkeep⟩ := exists_rel_of_mem hkeeps hs
    obtain ⟨q, mode, rfl⟩ := Place.exists_next_of_mem_read ht
    exact hshows.proper (hkeep.not_trivia Place.next_not_trivia)

/-- The clusters of the tree of a parse render the tokens that are read in some modes. -/
theorem exists_renders {limits : Limits} {text : Text} {p : Parse}
    (h : parseWithin limits text = .ok p) :
    ∃ modes, List.Forall₂ Cluster.Renders ((Place.start text).read modes).1
        (Item.clustersAll p.tree.root.children) ∧
      ∀ c ∈ Item.clustersAll p.tree.root.children, c.Proper := by
  obtain ⟨modes, hrenders, -, hproper⟩ := exists_renders_reports h
  exact ⟨modes, hrenders, hproper⟩

/-! ## Every parse -/

/-- **The tokens of a tree refine those that are read.**  For every parse there are modes in which,
read one after the other from the beginning of the text, without going back, exactly the tokens of
the tree come out: in the same places and with the same pieces of trivia around them, and under the
same kinds, but that a name may have become the keyword whose spelling its text is.  So every token
of a kind with a spelling is spelled like that. -/
theorem significantTokens_refine {limits : Limits} {text : Text} {p : Parse}
    (h : parseWithin limits text = .ok p) :
    (∃ modes, List.Forall₂ (fun t u => Cluster.Renders t (Tree.Token.cluster u))
      ((Place.start text).read modes).1 p.tree.root.significantTokens) ∧
    ∀ u ∈ p.tree.tokens, ∀ w, u.kind.spelling = some w → u.leaf.text = w.toList := by
  obtain ⟨modes, hrenders, hproper⟩ := exists_renders h
  refine ⟨⟨modes, ?_⟩, fun u hu w hw => ?_⟩
  · rw [← Tree.Node.map_cluster_significantTokens _ hproper] at hrenders
    exact List.forall₂_map_right_iff.1 hrenders
  · have hleaf : u.leaf ∈ (Item.clustersAll p.tree.root.children).flatMap Cluster.leaves := by
      rw [← Tree.Node.map_leaf_tokens]
      exact List.mem_map_of_mem hu
    obtain ⟨c, hc, hl⟩ := List.mem_flatMap.1 hleaf
    -- a piece of trivia has no spelling, so the token is that of the cluster
    rw [Tree.Token.kind] at hw
    have hno : u.leaf.kind.isTrivia = false := (Kind.spelling_cases (by simp [hw])).1
    obtain ⟨-, hlead, htrail⟩ := hproper c hc
    rw [Cluster.leaves, List.mem_append, List.mem_cons] at hl
    rcases hl with hl | hl | hl
    · rw [hlead _ hl] at hno
      cases hno
    · obtain ⟨t, ht, hrender⟩ := exists_rel_of_mem hrenders hc
      obtain ⟨q, mode, rfl⟩ := Place.exists_next_of_mem_read ht
      rw [hl]
      exact hrender.text_eq (fun v hv => Place.next_text_eq hv) (by rw [← hl]; exact hw)
    · rw [htrail _ hl] at hno
      cases hno

end

/-- A declaration, in which a name becomes a keyword. -/
theorem significantTokens_refine_var : ∃ p, parseWithin {} "var x;".toList = .ok p ∧
    (∃ modes, List.Forall₂ (fun t u => Cluster.Renders t (Tree.Token.cluster u))
      ((Place.start "var x;".toList).read modes).1 p.tree.root.significantTokens) ∧
    ∀ u ∈ p.tree.tokens, ∀ w, u.kind.spelling = some w → u.leaf.text = w.toList := by
  obtain ⟨p, hp, -⟩ := exists_parseWithin (Limits.endless_maxDepth _) "var x;".toList
  exact ⟨p, hp, significantTokens_refine hp⟩

end ActionScript
