import ActionScript.Proofs.Semicolons.Loops

/-!
# Line breaks and missing semicolons in a tree

What is marked of the shapes of a parse is read off its tree.  A statement without a semicolon is
followed by `}`, by the end of the text or by a new line; or else all text behind it, read as code,
is spaces and comments, though content of an unclosed element may begin with it.

* `Tree.Token.startsLine`: a line break stands among the pieces in front of a token.
* `Tree.Node.IsRestricted`: no line break stands where a restricted node must not have one.
* `Tree.Node.MayEnd`: what follows a statement that has no semicolon.
* `licensed_of_parseWithin`: **where line breaks and missing semicolons may stand.**
-/

set_option autoImplicit false

namespace ActionScript

open ActionScript.Parser ActionScript.Grammar

/-! ## Pieces of trivia in a tree -/

/-- A piece of trivia ends a line. -/
def Leaf.breaksLine (l : Leaf) : Bool :=
  l.kind == .newline || (l.kind == .blockComment && l.text.any isLineBreak)

theorem Leaf.ShowPieces.any_breaksLine {offset : Nat} {ts : List Trivia} {ls : List Leaf}
    (h : Leaf.ShowPieces offset ts ls) : ls.any Leaf.breaksLine = ts.any Trivia.breaksLine := by
  induction ts generalizing offset ls with
  | nil =>
    cases ls with
    | nil => rfl
    | cons l ls => exact h.elim
  | cons t ts ih =>
    cases ls with
    | nil => exact h.elim
    | cons l ls =>
      obtain ⟨hkind, htext, -, hrest⟩ := h
      have hfirst : l.breaksLine = t.breaksLine := by
        rw [Leaf.breaksLine, Trivia.breaksLine, hkind, htext]
        cases t.kind <;> simp [TriviaKind.kind]
      rw [List.any_cons, List.any_cons, ih hrest, hfirst]

namespace Tree

/-- A line break stands among the pieces in front of the token. -/
def Token.startsLine (t : Token) : Bool := t.leading.any Leaf.breaksLine

/-- The token is shown for that of a shape. -/
def Token.IsOf (t : Token) (s : Shape) : Prop := ∃ offset, t.cluster.Shows offset s

theorem Token.IsOf.startsLine_eq {t : Token} {s : Shape} (h : t.IsOf s) :
    t.startsLine = s.startsLine := by
  obtain ⟨offset, h⟩ := h
  cases s with
  | token kind field leading text trailing =>
    rw [startsLine, Shape.startsLine, Shape.tokens_token]
    exact h.1.any_breaksLine
  | node kind field kids => exact h.elim

theorem Token.IsOf.kind_eq {t : Token} {s : Shape} (h : t.IsOf s) : t.kind = s.kind := by
  obtain ⟨offset, h⟩ := h
  cases s with
  | token kind field leading text trailing => exact h.2.1
  | node kind field kids => exact h.elim

end Tree

/-- Clusters that are laid out show the shapes one by one. -/
theorem Laid.forall₂ {offset stop : Nat} {ss : List Shape} {cs : List Cluster}
    (h : Laid offset ss cs stop) :
    List.Forall₂ (fun c s => ∃ offset, Cluster.Shows c offset s) cs ss := by
  induction h with
  | nil => exact .nil
  | cons hshows _ ih => exact .cons ⟨_, hshows⟩ ih

/-! ## Tokens in a row -/

namespace Tree

/-- The first of some tokens. -/
theorem Token.startsLine_of_isOf {t : Token} {ts : List Token} {ss : List Shape}
    (h : List.Forall₂ Token.IsOf (t :: ts) ss) : t.startsLine = Shape.firstStartsLine ss := by
  obtain ⟨s, ss, ht, -, rfl⟩ := List.forall₂_cons_left_iff.1 h
  rw [ht.startsLine_eq]
  cases s with
  | token kind field leading text trailing =>
    rw [Shape.startsLine, Shape.tokens_token]
    rfl
  | node kind field kids => exact ht.choose_spec.elim

/-- Tokens, trivia included, are shown for those of some shapes. -/
structure Token.Show (ts : List Token) (ss : List Shape) : Prop where
  isOf : List.Forall₂ Token.IsOf (ts.filter fun t => !t.isTrivia) ss
  text : (ts.flatMap fun t => t.leaf.text) = Shape.sourceAll ss

theorem Token.show_nil : Token.Show [] [] := ⟨.nil, (by rw [Shape.sourceAll, List.flatMap_nil])⟩

theorem Token.Show.append {ts us : List Token} {ss rs : List Shape} (h : Token.Show ts ss)
    (h' : Token.Show us rs) : Token.Show (ts ++ us) (ss ++ rs) where
  isOf := by
    rw [List.filter_append]
    exact List.rel_append h.isOf h'.isOf
  text := by rw [List.flatMap_append, h.text, h'.text, Shape.sourceAll_append]

namespace Node

variable {p : Progress} {s : Shape} {ss : List Shape}

theorem show_of_clusters {ts : List Token} {cs : List Cluster} {offset stop : Nat}
    (hclusters : (ts.filter fun t => !t.isTrivia).map Token.cluster = cs)
    (hleaves : ts.map Token.leaf = cs.flatMap Cluster.leaves) (hlaid : Laid offset ss cs stop) :
    Token.Show ts ss where
  isOf := by
    have h := hlaid.forall₂
    rw [← hclusters, List.forall₂_map_left_iff] at h
    exact h
  text := by
    have htext := List.flatMap_map (f := Token.leaf) (g := Leaf.text) (l := ts)
    rw [hleaves, hlaid.flatMap_text] at htext
    exact htext.symm

/-- **The tokens of shapes that are laid out are shown for theirs.** -/
theorem show_tokensOf (n : Node) (slot : Nat) (h : ∀ c ∈ (p.lay s).1.clusters, c.Proper) :
    Token.Show (n.tokensOf slot (p.lay s).1) s.tokens :=
  show_of_clusters (n.map_cluster_tokensOf slot _ h) (n.map_leaf_tokensOf slot _) (p.laid_lay s)

theorem show_tokensFrom (n : Node) (slot : Nat)
    (h : ∀ c ∈ Item.clustersAll (p.layAll ss).1, c.Proper) :
    Token.Show (n.tokensFrom slot (p.layAll ss).1) (Shape.tokensAll ss) :=
  show_of_clusters (n.map_cluster_tokensFrom slot _ h) (n.map_leaf_tokensFrom slot _)
    (p.laid_layAll ss)

end Node

/-! ## Elements in a row -/

/-- An element was laid out from a shape. -/
def Element.IsLaidFrom (e : Element) (s : Shape) : Prop :=
  ∃ (n : Node) (slot : Nat) (p : Progress), e = n.element slot (p.lay s).1 ∧
    ∀ c ∈ (p.lay s).1.clusters, c.Proper

/-- The first token of an element. -/
def Element.first? : Element → Option Token
  | .node n => n.significantTokens.head?
  | .token t => some t

namespace Element.IsLaidFrom

variable {e : Element} {s : Shape} (h : e.IsLaidFrom s)
include h

theorem field_eq : e.field = s.slot? := by
  obtain ⟨n, slot, p, rfl, -⟩ := h
  exact (n.hasShape_element slot p s).field_eq

/-- The first token of an element starts no line if that of the shape does not. -/
theorem first?_startsLine (hline : s.startsLine = false) :
    ∀ t ∈ e.first?, t.startsLine = false := by
  obtain ⟨n, slot, p, rfl, hproper⟩ := h
  intro t ht
  cases s with
  | token kind field leading text trailing =>
    have hof : Token.IsOf (n.token slot (p.cluster kind field leading text trailing).1)
        (.token kind field leading text trailing) := ⟨_, (p.shows_cluster _ _ _ _ _).1⟩
    have ht : n.token slot (p.cluster kind field leading text trailing).1 = t := Option.some.inj ht
    rw [← ht, hof.startsLine_eq, hline]
  | node kind field kids =>
    have hshow := (n.show_tokensOf slot hproper).isOf
    rw [Progress.lay] at hshow ht
    rw [Node.tokensOf] at hshow
    obtain ⟨ts, hts⟩ := List.head?_eq_some_iff.1 ht
    change List.Forall₂ _ (Node.significantTokens (n.child slot _ _)) _ at hshow
    rw [hts] at hshow
    rw [Token.startsLine_of_isOf hshow]
    exact hline

end Element.IsLaidFrom

namespace Node

variable {n m : Node} {p : Progress} {ss : List Shape} {P : List Shape → Prop}

theorem forall₂_isLaidFrom_layAll (slots : Nat → Nat)
    (hproper : ∀ c ∈ Item.clustersAll (p.layAll ss).1, c.Proper) :
    List.Forall₂ Element.IsLaidFrom ((p.layAll ss).1.mapIdx fun i => n.element (slots i)) ss := by
  induction ss generalizing p slots with
  | nil =>
    rw [Progress.layAll]
    exact .nil
  | cons s ss ih =>
    rw [Progress.layAll, Item.clustersAll] at hproper
    rw [Progress.layAll, List.mapIdx_cons]
    exact .cons ⟨n, _, p, rfl, fun c hc => hproper c (List.mem_append_left _ hc)⟩
      (ih (fun i => slots (i + 1)) fun c hc => hproper c (List.mem_append_right _ hc))

/-- The elements of a node were laid out from its shapes. -/
theorem forall₂_isLaidFrom (hchildren : n.children = (p.layAll ss).1)
    (hproper : ∀ c ∈ Item.clustersAll n.children, c.Proper) :
    List.Forall₂ Element.IsLaidFrom n.elements ss := by
  rw [elements, hchildren]
  rw [hchildren] at hproper
  exact forall₂_isLaidFrom_layAll id hproper

/-! ## Restricted nodes -/

/-- No line break stands between `return` or `throw` and the value right behind it, `break` or
`continue` and its label, an operand and the update behind it. -/
def IsRestricted (n : Node) : Prop :=
  ∀ f ∈ Shape.restrictedSlot n.kind, ∀ before e behind, n.elements = before ++ e :: behind →
    e.field = some f →
    n.kind = .updateExpr ∧ before = [] ∨ before.length = 1 ∧ ∀ t ∈ e.first?, t.startsLine = false

theorem isRestricted_of_joined (hjoined : Shape.Joined n.kind ss)
    (hlaid : List.Forall₂ Element.IsLaidFrom n.elements ss) : n.IsRestricted := by
  intro f hf before e behind helements hfield
  rw [helements] at hlaid
  obtain ⟨rs, qs, hbefore, hbehind, rfl⟩ : ∃ rs qs, List.Forall₂ Element.IsLaidFrom before rs ∧
      List.Forall₂ Element.IsLaidFrom (e :: behind) qs ∧ ss = rs ++ qs :=
    ⟨ss.take before.length, ss.drop before.length,
      by simpa using List.forall₂_take before.length hlaid,
      by simpa using List.forall₂_drop before.length hlaid, (List.take_append_drop _ _).symm⟩
  obtain ⟨s, qs, he, -, rfl⟩ := List.forall₂_cons_left_iff.1 hbehind
  refine (hjoined f hf rs s qs rfl (by rw [← he.field_eq, hfield])).imp ?_ ?_
  · rintro ⟨hkind, rfl⟩
    exact ⟨hkind, List.forall₂_nil_right_iff.1 hbefore⟩
  · rintro ⟨hlength, hline⟩
    exact ⟨hbefore.length_eq.trans hlength, he.first?_startsLine hline⟩

/-! ## Ends of statements -/

/-- The node is a child of a `for`. -/
def inFor (n : Node) : Bool := n.parent?.any fun p => forKinds.contains p.kind

/-- Behind a node among some tokens stand those of shapes that are as `P` says, if the node is a
statement without its semicolon. -/
def Ends (P : List Shape → Prop) (ts : List Token) (n : Node) : Prop :=
  ∃ (before behind : List Token) (us : List Shape) (p : Progress) (kids : List Shape),
    ts = before ++ n.tokens ++ behind ∧ Token.Show behind us ∧ n.children = (p.layAll kids).1 ∧
    (∀ c ∈ Item.clustersAll n.children, c.Proper) ∧
    ((Shape.node n.kind n.field kids).stopAfter n.inFor = [.stop] → P us)

theorem Ends.append_right {ts us : List Token} {rs : List Shape}
    (h : n.Ends (fun qs => P (qs ++ rs)) ts) (hus : Token.Show us rs) : n.Ends P (ts ++ us) := by
  obtain ⟨before, behind, qs, p, kids, rfl, hshow, hrest⟩ := h
  exact ⟨before, behind ++ us, qs ++ rs, p, kids, by simp, hshow.append hus, hrest⟩

theorem Ends.append_left {ts us : List Token} (h : n.Ends P us) : n.Ends P (ts ++ us) := by
  obtain ⟨before, behind, qs, p, kids, rfl, hrest⟩ := h
  exact ⟨ts ++ before, behind, qs, p, kids, by simp, hrest⟩

mutual

theorem ends_of_mem_nodesOf {n m : Node} {P : List Shape → Prop} {slot : Nat}
    {p : Progress} {s : Shape} (h : Mark.Each P (s.marks ++ s.stopAfter (forKinds.contains n.kind)))
    (hproper : ∀ c ∈ (p.lay s).1.clusters, c.Proper) (hm : m ∈ n.nodesOf slot (p.lay s).1) :
    m.Ends P (n.tokensOf slot (p.lay s).1) := by
  cases s with
  | token kind field leading text trailing =>
    rw [Progress.lay, nodesOf] at hm
    cases hm
  | node kind field kids =>
    rw [Progress.lay] at hproper hm ⊢
    rw [nodesOf] at hm
    rw [tokensOf]
    rw [Item.clusters] at hproper
    rw [Mark.each_append, Shape.marks_node, Shape.tokens_stopAfter] at h
    rcases List.mem_cons.1 hm with rfl | hm
    · refine ⟨[], [], [], { p with nodes := p.nodes + 1 }, kids, by simp [tokens, child],
        Token.show_nil, rfl, hproper, fun hstop => ?_⟩
      have hstop : (Shape.node kind field kids).stopAfter (forKinds.contains n.kind) = [.stop] :=
        hstop
      rw [hstop] at h
      exact h.2.1
    · refine ends_of_mem_nodesFrom (p := { p with nodes := p.nodes + 1 }) ?_ hproper hm
      exact h.1.mono fun ts hts => by rwa [List.append_nil] at hts

/-- **Where the statements below shapes that are laid out end.** -/
theorem ends_of_mem_nodesFrom {n m : Node} {P : List Shape → Prop} {slot : Nat} {p : Progress}
    {ss : List Shape}
    (h : Mark.Each P (Shape.marksIn (forKinds.contains n.kind) ss))
    (hproper : ∀ c ∈ Item.clustersAll (p.layAll ss).1, c.Proper)
    (hm : m ∈ n.nodesFrom slot (p.layAll ss).1) :
    m.Ends P (n.tokensFrom slot (p.layAll ss).1) := by
  cases ss with
  | nil =>
    rw [Progress.layAll, nodesFrom] at hm
    cases hm
  | cons s ss =>
    rw [Progress.layAll] at hproper hm ⊢
    rw [nodesFrom, List.mem_append] at hm
    rw [Item.clustersAll] at hproper
    rw [tokensFrom]
    rw [Shape.marksIn_cons, ← List.append_assoc, Mark.each_append, Shape.tokens_marksIn] at h
    rcases hm with hm | hm
    · exact (ends_of_mem_nodesOf h.1 (fun c hc => hproper c (List.mem_append_left _ hc))
        hm).append_right (n.show_tokensFrom _ fun c hc => hproper c (List.mem_append_right _ hc))
    · exact (ends_of_mem_nodesFrom h.2 (fun c hc => hproper c (List.mem_append_right _ hc))
        hm).append_left

end

/-- A statement that needs a semicolon: a function only without a body, variables not in the head of
a `for`. -/
def NeedsSemicolon (n : Node) : Prop :=
  n.kind ∈ Kind.terminated ∧ (n.kind = .functionDecl → n.inField .body = []) ∧
    ¬((n.kind = .variableDecl ∨ n.kind = .constantDecl) ∧
      (n.field = some .left ∨ n.field = some .initializer) ∧ n.inFor = true)

/-- The last child of a node is a semicolon. -/
def EndsInSemicolon (n : Node) : Prop :=
  ∃ t, n.elements.getLast? = some (.token t) ∧ t.kind = .semicolon

/-- What may follow a statement without a semicolon among the tokens of a file: `}`, a new line, or
text that is, read as code, at its end. -/
def MayEnd [Alphabet] (n : Node) (ts : List Token) : Prop :=
  ∃ before behind, ts = before ++ n.tokens ++ behind ∧
    ((∃ t, behind.find? (fun t => !t.isTrivia) = some t ∧
      (t.kind = .rCurly ∨ t.startsLine = true)) ∨
      (Place.start (behind.flatMap fun t => t.leaf.text)).ahead = .eof)

/-- A statement that needs a semicolon has one if its shape does; else a stop is marked behind
it. -/
theorem NeedsSemicolon.stopAfter (hneeds : n.NeedsSemicolon)
    (hchildren : n.children = (p.layAll ss).1) :
    (Shape.node n.kind n.field ss).stopAfter n.inFor =
      if Shape.endInSemicolon ss then [] else [.stop] := by
  obtain ⟨hkind, hbody, hhead⟩ := hneeds
  have hneeds : Shape.needsSemicolon n.kind ss = true := by
    rw [Shape.needsSemicolon, Bool.and_eq_true, List.contains_iff_mem]
    refine ⟨hkind, ?_⟩
    cases hfunction : n.kind == .functionDecl with
    | false => rfl
    | true =>
      have hnone := (inField_eq_nil_iff hchildren _).1 (hbody (eq_of_beq hfunction))
      simpa using hnone
  have hhead : (n.inFor && (Shape.node n.kind n.field ss).isHead) = false := by
    rw [← Bool.not_eq_true]
    intro h
    simp only [Bool.and_eq_true, Shape.isHead, Bool.or_eq_true, beq_iff_eq] at h
    exact hhead ⟨h.2.1, h.2.2, h.1⟩
  rw [Shape.stopAfter, Shape.isUnended, hneeds, hhead]
  cases Shape.endInSemicolon ss <;> rfl

theorem endsInSemicolon_of_laidFrom (hlaid : List.Forall₂ Element.IsLaidFrom n.elements ss)
    (h : Shape.endInSemicolon ss = true) : n.EndsInSemicolon := by
  rw [Shape.endInSemicolon, Option.any_eq_true] at h
  obtain ⟨s, hlast, htoken⟩ := h
  rw [List.getLast?_eq_some_iff] at hlast
  obtain ⟨ss, rfl⟩ := hlast
  rw [← List.forall₂_reverse_iff, List.reverse_concat, List.forall₂_cons_right_iff] at hlaid
  obtain ⟨e, es, he, -, hes⟩ := hlaid
  have hlast : n.elements.getLast? = some e := by rw [← List.head?_reverse, hes, List.head?_cons]
  obtain ⟨m, slot, q, rfl, -⟩ := he
  cases s with
  | token kind field leading text trailing => exact ⟨_, hlast, eq_of_beq htoken⟩
  | node kind field kids => cases htoken

theorem Ends.mayEnd [Alphabet] {ts : List Token} (h : n.Ends (fun us => Shape.Resumes us ∨
      (Place.start (Shape.sourceAll us)).ahead = .eof) ts) (hneeds : n.NeedsSemicolon) :
    n.EndsInSemicolon ∨ n.MayEnd ts := by
  obtain ⟨before, behind, us, p, kids, hts, hshow, hchildren, hproper, hstop⟩ := h
  rw [hneeds.stopAfter hchildren] at hstop
  cases hlast : Shape.endInSemicolon kids with
  | true => exact .inl (endsInSemicolon_of_laidFrom (forall₂_isLaidFrom hchildren hproper) hlast)
  | false =>
    refine .inr ⟨before, behind, hts, ?_⟩
    rw [hlast] at hstop
    rw [hshow.text]
    refine (hstop rfl).imp_left ?_
    rintro ⟨s, us, rfl, hs⟩
    obtain ⟨t, others, ht, -, hfilter⟩ := List.forall₂_cons_right_iff.1 hshow.isOf
    refine ⟨t, by rw [← List.head?_filter, hfilter, List.head?_cons], ?_⟩
    rwa [ht.kind_eq, ht.startsLine_eq]

end Node

end Tree

/-! ## Parses -/

/-- No line break stands in the pieces behind a token. -/
theorem State.Outcome.trailing_not_breaksLine [Alphabet] {s : State} {text : Text}
    {modes : List Mode}
    {kids : List Shape} {last : Token} (h : s.Outcome text modes kids last)
    {t : Tree.Token} {u : Shape} (ht : t.IsOf u)
    (hu : u ∈ Shape.tokensAll (kids ++ [.token .eof none last.leading last.text last.trailing])) :
    t.trailing.any Leaf.breaksLine = false := by
  obtain ⟨offset, hshows⟩ := ht
  cases u with
  | node kind field kids => exact hshows.elim
  | token kind field leading text trailing =>
    have hpieces := hshows.2.2.2.2.2.any_breaksLine
    rw [show t.trailing = t.cluster.trailing from rfl, hpieces, List.any_eq_false]
    rw [Shape.tokensAll_append, List.mem_append] at hu
    rcases hu with hu | hu
    · obtain ⟨token, htoken, -, -, rfl, -⟩ := exists_rel_of_mem h.keeps hu
      obtain ⟨place, mode, rfl⟩ := Place.exists_next_of_mem_read htoken
      simpa using Place.trailing_not_breaksLine
    · rw [Shape.tokensAll_cons, Shape.tokens_token, Shape.tokensAll_nil, List.append_nil,
        List.mem_singleton, Shape.token.injEq] at hu
      simp [hu.2.2.2.2, h.last_text.2]

/-- **Where line breaks and missing semicolons may stand.**  No line break separates `return` or
`throw` from its value, `break` or `continue` from its label, or an operand from the update behind
it: these stand side by side, no piece of trivia behind a token breaks a line, and none in front of
the second does.  If no semicolon is reported missing, each statement that needs one has it, or it
is followed by `}`, by a new line, or by text that, read as code, holds no more tokens. -/
theorem licensed_of_parseWithin [Alphabet] {limits : Limits} {text : Text} {p : Parse}
    (h : parseWithin limits text = .ok p) :
    (∀ n ∈ p.tree.root.descendants, n.IsRestricted) ∧
    (∀ t ∈ p.tree.root.significantTokens, t.trailing.any Leaf.breaksLine = false) ∧
    ((∀ d ∈ p.diagnostics, d.cause ≠ .syntactic (.expected .semicolon)) →
      ∀ n ∈ p.tree.root.descendants, n.NeedsSemicolon →
        n.EndsInSemicolon ∨ n.MayEnd p.tree.root.tokens) := by
  have ha := aborted_of_parseWithin h
  have hreports := diagnostics_of_parseWithin h
  refine ⟨fun n hn => ?_, ?_, fun hunmissed n hn hneeds => ?_⟩
  · obtain ⟨-, -, q, kids, -, -, -, hchildren, -, -, hproper, hevery⟩ :=
      liesIn_of_every h (State.joined_run ha) n hn
    rw [Shape.every_node] at hevery
    exact Tree.Node.isRestricted_of_joined hevery.1 (Tree.Node.forall₂_isLaidFrom hchildren hproper)
  · obtain ⟨-, -, hproper⟩ := exists_renders h
    obtain ⟨modes, kids, last, hout⟩ := State.run_outcome ha
    rw [hout.parseWithin_eq ha, Except.ok.injEq] at h
    subst h
    rw [Tree.root_ofStem] at hproper ⊢
    intro t ht
    obtain ⟨u, hu, hof⟩ := exists_rel_of_mem
      (R := fun u t => Tree.Token.IsOf t u) (Tree.Node.show_tokensFrom _ 0 hproper).isOf.flip ht
    exact hout.trailing_not_breaksLine hof hu
  · obtain ⟨-, -, hproper⟩ := exists_renders h
    obtain ⟨modes, kids, last, hout⟩ := State.run_outcome ha
    have hsettled := State.settled_run hout
      ⟨ha, fun d hd => hunmissed d (by rw [hreports]; exact List.mem_reverse.2 hd)⟩
    rw [hout.parseWithin_eq ha, Except.ok.injEq] at h
    subst h
    rw [Tree.root_ofStem] at hproper hn ⊢
    rcases List.mem_cons.1 hn with rfl | hn
    · exact absurd (show Kind.sourceFile ∈ Kind.terminated from hneeds.1) (by decide)
    · exact (Tree.Node.ends_of_mem_nodesFrom hsettled hproper hn).mayEnd hneeds

/-- Three statements without semicolons: in front of `}`, of a new line and at the end of the
text. -/
theorem licensed_of_parseWithin_ends : ∃ p, parseWithin {} "if (a) { b }\nreturn c".toList = .ok p ∧
    p.diagnostics = [] ∧
    (∀ n ∈ p.tree.root.descendants, n.IsRestricted) ∧
    (∀ t ∈ p.tree.root.significantTokens, t.trailing.any Leaf.breaksLine = false) ∧
    ∀ n ∈ p.tree.root.descendants, n.NeedsSemicolon →
      n.EndsInSemicolon ∨ n.MayEnd p.tree.root.tokens := by
  obtain ⟨p, hp, hclean⟩ :=
    exists_clean_parse {} "if (a) { b }\nreturn c".toList (by decide +kernel)
  obtain ⟨hrestricted, htrailing, hends⟩ := licensed_of_parseWithin hp
  exact ⟨p, hp, hclean, hrestricted, htrailing, hends (by simp [hclean])⟩

/-- Content of an element stands behind a statement without a semicolon: text that was white space
as long as it was read as code. -/
theorem not_rCurly_or_eof_behind_statement :
    ∃ p, parseWithin {} "<a>\x7bfunction()\x7bx\n".toList = .ok p ∧
      (∀ d ∈ p.diagnostics, d.cause ≠ .syntactic (.expected .semicolon)) ∧
      ∃ n ∈ p.tree.root.descendants, ∃ last next, n.NeedsSemicolon ∧ ¬n.EndsInSemicolon ∧
        n.tokens.getLast? = some last ∧ p.tree.nextToken? last = some next ∧
        next.isTrivia = false ∧ next.kind ≠ .rCurly ∧ next.kind ≠ .eof ∧
          next.startsLine = false := by
  obtain ⟨p, hp, -⟩ := exists_parseWithin (Limits.endless_maxDepth 256)
    "<a>\x7bfunction()\x7bx\n".toList
  have hfound : ((parseWithin {} "<a>\x7bfunction()\x7bx\n".toList).toOption.any fun p =>
      (p.diagnostics.all fun d => d.cause != .syntactic (.expected .semicolon)) &&
      p.tree.root.descendants.any fun n => n.kind == .exprStmt &&
        (n.elements.getLast?.all fun e => e.token?.isNone) &&
        n.tokens.getLast?.any fun last => (p.tree.nextToken? last).any fun next =>
          !next.isTrivia && next.kind != .rCurly && next.kind != .eof &&
            !next.startsLine) = true := by
    decide +kernel
  rw [hp] at hfound
  simp only [Except.toOption, Option.any_some, Bool.and_eq_true, List.all_eq_true, List.any_eq_true,
    Option.any_eq_true, bne_iff_ne, ne_eq, beq_iff_eq, Bool.not_eq_true'] at hfound
  obtain ⟨hreports, n, hn, ⟨hkind, hnone⟩, last, hlast, next, hnext,
    ⟨⟨htrivia, hcurly⟩, heof⟩, hline⟩ :=
    hfound
  refine ⟨p, hp, hreports, n, hn, last, next, ⟨?_, ?_, ?_⟩, ?_, hlast, hnext, htrivia, hcurly,
    heof, hline⟩
  · rw [hkind]
    decide
  · rw [hkind]
    intro hfunction
    cases hfunction
  · rw [hkind]
    rintro ⟨hvariable | hconstant, -⟩
    · cases hvariable
    · cases hconstant
  · rintro ⟨t, ht, -⟩
    rw [ht] at hnone
    cases hnone

end ActionScript
