import ActionScript.Proofs.Navigation.Descent
import ActionScript.Proofs.Offsets

/-!
# The smallest element around a stretch of text

What holds a stretch of text is looked for from one token only, the one that holds its beginning: if
that does not hold all of it, then the nodes around the token are tried, innermost first.  Nothing
is missed, for the tokens of a node make up its full span, so every node that holds the stretch,
unless it is empty, has that token, and lies on the way up from it.

* `Tree.exists_token_over`: one token of a row holds an offset and reaches past it.
* `Tree.Node.mem_ancestors_of_mem_tokens`: a node that has a token is on the way up from it.
* `Tree.Node.exists_search`: where the search begins and ends.
* `Tree.Node.Search.node_minimal`: a node that is found has none below it that would do.
* `covering_of_built`: **what is found is the smallest element.**
-/

set_option autoImplicit false

namespace ActionScript

theorem Span.contains_iff {s t : Span} :
    s.contains t = true ↔ s.start ≤ t.start ∧ t.stop ≤ s.stop := by
  rw [Span.contains, Bool.and_eq_true, decide_eq_true_eq, decide_eq_true_eq]

namespace Tree

/-- **One token of a row holds an offset and reaches past it**, and no other does. -/
theorem exists_token_over {ts : List Token} {start stop offset : Nat}
    (h : Leaf.Contiguous start (ts.map Token.leaf) stop) (hstart : start ≤ offset)
    (hstop : offset < stop) :
    ∃ passed right behind, ts = passed ++ right :: behind ∧ (∀ t ∈ passed, t.span.stop ≤ offset) ∧
      right.span.start ≤ offset ∧ offset < right.span.stop ∧
      ∀ t ∈ ts, t.span.start ≤ offset → offset < t.span.stop → t = right := by
  obtain ⟨passed, right, behind, rfl, hpassed, hleft, hright⟩ := exists_split h hstart hstop
  refine ⟨passed, right, behind, rfl, hpassed, hleft, hright, fun t ht hbegin hend => ?_⟩
  rw [List.map_append, List.map_cons] at h
  obtain ⟨mid, -, hmid, hbehind⟩ := h.of_append
  rw [List.mem_append, List.mem_cons] at ht
  rcases ht with ht | rfl | ht
  · have := hpassed t ht
    omega
  · rfl
  · have hlater : right.span.stop ≤ t.span.start := by
      rw [Token.span, Leaf.span, hmid]
      exact (hbehind.within_row (List.mem_map_of_mem ht)).1
    omega

namespace Node

variable {n m d : Node} {t : Token} {s : Span}

/-- **A node that has a token lies on the way up from it.** -/
theorem mem_ancestors_of_mem_tokens (ht : t ∈ d.tokens) : d ∈ t.parent.ancestors := by
  obtain ⟨chain, hchain, -⟩ := exists_ancestors_append (parent_mem_descendants ht)
  rw [hchain]
  exact List.mem_append_right _ List.mem_cons_self

theorem level_le_of_mem_descendants (hd : d ∈ n.descendants) : n.level ≤ d.level := by
  obtain ⟨k, hk⟩ := exists_reaches hd
  have hdeep : d.level = n.level + k := hk.level
  omega

theorem level_lt_of_mem_nodes {c : Node} (hc : c ∈ m.nodes) (hd : d ∈ c.descendants) :
    m.level < d.level := by
  have hchild : c.level = m.level + 1 := level_of_mem_elements (mem_nodes.1 hc)
  have hdeep := level_le_of_mem_descendants hd
  omega

/-- Below a node nothing reaches beyond its full span. -/
theorem fullSpan_within (hn : ∀ m ∈ n.descendants, m.Tiled) (hd : d ∈ n.descendants) :
    n.fullSpan.start ≤ d.fullSpan.start ∧ d.fullSpan.stop ≤ n.fullSpan.stop := by
  refine (descendants_induct (P := fun m => m ∈ n.descendants ∧
    n.fullSpan.start ≤ m.fullSpan.start ∧ m.fullSpan.stop ≤ n.fullSpan.stop)
    ⟨List.mem_cons_self, Nat.le_refl _, Nat.le_refl _⟩ ?_ hd).2
  rintro m c ⟨hm, hstart, hstop⟩ hc
  obtain ⟨hfirst, -, hlast⟩ := (hn m hm).tile.mem (List.mem_map_of_mem (mem_nodes.1 hc))
  exact ⟨mem_descendants_trans (mem_descendants.2 (.inr ⟨c, hc, List.mem_cons_self⟩)) hm,
    Nat.le_trans hstart hfirst, Nat.le_trans hlast hstop⟩

/-- **Where the search for what holds a span begins and ends**: with the token that reaches past the
beginning of the span, and the nodes around it up to the node that is searched. -/
theorem covering_of_split {passed behind : List Token} {right : Token} {chain : List Node}
    (htokens : n.tokens = passed ++ right :: behind) (hpassed : ∀ t ∈ passed, t.span.stop ≤ s.start)
    (hstart : right.span.start ≤ s.start) (hstop : s.start < right.span.stop)
    (hchain : right.parent.ancestors = chain ++ n.ancestors)
    (hbelow : ∀ a ∈ chain, a.info.index ≠ n.info.index) :
    n.covering s = if right.span.contains s then .token right
      else .node ((chain.find? fun a => a.fullSpan.contains s).getD n) := by
  have hright : (n.tokensAt s.start).right? = some right := by
    rw [tokensAt_of_split htokens hpassed hstart hstop]
    cases passed.getLast?.filter (·.span.stop == s.start) <;> rfl
  have htake :
      right.parent.ancestors.takeWhile (fun a => a.info.index != n.info.index) = chain := by
    rw [hchain, List.takeWhile_append_of_pos (by simpa using hbelow), ancestors]
    simp
  rw [covering, hright]
  simp only [htake]

/-- The search for what holds a span, within a node that the span begins in: the one token that
reaches past the beginning, and the nodes around it up to that node. -/
structure Search (n : Node) (s : Span) (right : Token) (chain : List Node) : Prop where
  laidOut : ∀ d ∈ n.descendants, d.LaidOut
  tiled : ∀ d ∈ n.descendants, d.Tiled
  mem : right ∈ n.tokens
  start : right.span.start ≤ s.start
  stop : s.start < right.span.stop
  only : ∀ t ∈ n.tokens, t.span.start ≤ s.start → s.start < t.span.stop → t = right
  ancestors : right.parent.ancestors = chain ++ n.ancestors
  below : ∀ a ∈ chain, ∃ d ∈ n.nodes, a ∈ d.descendants
  covering : n.covering s = if right.span.contains s then .token right
    else .node ((chain.find? fun a => a.fullSpan.contains s).getD n)

theorem exists_search (hlaid : ∀ d ∈ n.descendants, d.LaidOut)
    (htiled : ∀ d ∈ n.descendants, d.Tiled)
    (hstart : n.fullSpan.start ≤ s.start) (hstop : s.start < n.fullSpan.stop) :
    ∃ right chain, n.Search s right chain := by
  have hn := hlaid n List.mem_cons_self
  obtain ⟨passed, right, behind, htokens, hpassed, hleft, hright, honly⟩ :=
    exists_token_over hn.contiguous hstart hstop
  have hmem : right ∈ n.tokens := by simp [htokens]
  obtain ⟨chain, hchain, hkids⟩ := exists_ancestors_append (parent_mem_descendants hmem)
  have hnumber : ∀ a ∈ chain, a.info.index ≠ n.info.index := fun a ha =>
    Nat.ne_of_gt (hn.index_lt (mem_nodesFrom_children.2 (hkids a ha)))
  exact ⟨right, chain, hlaid, htiled, hmem, hleft, hright, honly, hchain, hkids,
    covering_of_split htokens hpassed hleft hright hchain hnumber⟩

namespace Search

variable {right : Token} {chain : List Node}

/-- A span that the token at its beginning does not hold is not empty. -/
theorem start_lt_stop (h : n.Search s right chain) (hright : right.span.contains s = false) :
    s.start < s.stop := by
  by_contra hempty
  have hstart := h.start
  have hstop := h.stop
  have hholds : right.span.contains s = true := Span.contains_iff.2 (by omega)
  rw [hright] at hholds
  cases hholds

/-- If any token holds the span, then the one at its beginning does. -/
theorem contains_of_mem (h : n.Search s right chain) (ht : t ∈ n.tokens)
    (hholds : t.span.contains s = true) : right.span.contains s = true := by
  by_contra hright
  rw [Bool.not_eq_true] at hright
  -- the span is not empty, so what holds it reaches past its beginning
  have hwide := h.start_lt_stop hright
  obtain ⟨hstart, hstop⟩ := Span.contains_iff.1 hholds
  obtain rfl := h.only t ht hstart (Nat.lt_of_lt_of_le hwide hstop)
  rw [hholds] at hright
  cases hright

theorem descendants_of_mem (h : n.Search s right chain) (ha : m ∈ chain) : m ∈ n.descendants := by
  obtain ⟨d, hd, hm⟩ := h.below m ha
  exact Node.mem_descendants.2 (.inr ⟨d, hd, hm⟩)

/-- **Nodes below that hold the span lie on the way up from the token at its beginning**, if they do
not hold it where it is empty. -/
theorem mem_chain (h : n.Search s right chain) (hs : s.start < s.stop)
    (hm : m ∈ n.descendants) {c : Node}
    (hc : c ∈ m.nodes) (hd : d ∈ c.descendants) (hholds : d.fullSpan.contains s = true) :
    d ∈ chain := by
  have hdn : d ∈ n.descendants := mem_descendants_trans (mem_descendants.2 (.inr ⟨c, hc, hd⟩)) hm
  have hlevel : n.level < d.level :=
    Nat.lt_of_le_of_lt (level_le_of_mem_descendants hm) (level_lt_of_mem_nodes hc hd)
  obtain ⟨hstart, hstop⟩ := Span.contains_iff.1 hholds
  obtain ⟨passed, holder, behind, htokens, -, hbegin, hend, -⟩ :=
    exists_token_over (h.laidOut d hdn).contiguous hstart (Nat.lt_of_lt_of_le hs hstop)
  have hholder : holder ∈ d.tokens := by simp [htokens]
  obtain rfl := h.only holder (mem_tokens_of_mem_descendants hholder hdn) hbegin hend
  have hup := mem_ancestors_of_mem_tokens hholder
  rw [h.ancestors, List.mem_append] at hup
  rcases hup with hup | hup
  · exact hup
  · have hpairwise := n.pairwise_level_ancestors
    rw [Node.ancestors, List.pairwise_cons] at hpairwise
    rw [Node.ancestors, List.mem_cons] at hup
    rcases hup with rfl | hup
    · exact absurd hlevel (Nat.lt_irrefl _)
    · have := hpairwise.1 d hup
      omega

/-- The first node on the way up that holds the span has none on the way below it that does. -/
theorem not_contains_of_find? (h : n.Search s right chain)
    (hfind : chain.find? (fun a => a.fullSpan.contains s) = some m) (hd : d ∈ chain)
    (hlevel : m.level < d.level) : d.fullSpan.contains s = false := by
  obtain ⟨-, front, rest, rfl, hfront⟩ := List.find?_eq_some_iff_append.1 hfind
  have hpairwise := right.parent.pairwise_level_ancestors
  rw [h.ancestors, List.append_assoc, List.pairwise_append, List.cons_append, List.pairwise_cons]
    at hpairwise
  rw [List.mem_append, List.mem_cons] at hd
  rcases hd with hd | rfl | hd
  · simpa using hfront d hd
  · exact absurd hlevel (Nat.lt_irrefl _)
  · have := hpairwise.2.1.1 d (List.mem_append_left _ hd)
    omega

/-- **The node that is found holds the span, and no node below it does.** -/
theorem node_minimal (h : n.Search s right chain) (hs : s.start < s.stop)
    (hself : n.fullSpan.contains s = true)
    (hm : m = (chain.find? fun a => a.fullSpan.contains s).getD n) :
    m ∈ n.descendants ∧ m.fullSpan.contains s = true ∧
      ∀ c ∈ m.nodes, ∀ d ∈ c.descendants, d.fullSpan.contains s = false := by
  cases hfind : chain.find? (fun a => a.fullSpan.contains s) with
  | none =>
    rw [hfind, Option.getD_none] at hm
    subst hm
    refine ⟨List.mem_cons_self, hself, fun c hc d hd => ?_⟩
    by_contra hheld
    rw [Bool.not_eq_false] at hheld
    exact List.find?_eq_none.1 hfind d (h.mem_chain hs List.mem_cons_self hc hd hheld) hheld
  | some a =>
    rw [hfind, Option.getD_some] at hm
    subst hm
    have hmn := h.descendants_of_mem (List.mem_of_find?_eq_some hfind)
    have hholds : m.fullSpan.contains s = true :=
      List.find?_some (p := fun a : Node => a.fullSpan.contains s) hfind
    refine ⟨hmn, hholds, fun c hc d hd => ?_⟩
    by_contra hheld
    rw [Bool.not_eq_false] at hheld
    have hlower :=
      h.not_contains_of_find? hfind (h.mem_chain hs hmn hc hd hheld) (level_lt_of_mem_nodes hc hd)
    rw [hheld] at hlower
    cases hlower

/-- Below a node that does not hold the span nothing does. -/
theorem find?_eq_none (h : n.Search s right chain) (hmiss : n.fullSpan.contains s = false) :
    (chain.find? fun a => a.fullSpan.contains s) = none := by
  refine List.find?_eq_none.2 fun a ha hheld => ?_
  have hwithin := fullSpan_within h.tiled (h.descendants_of_mem ha)
  have hinner := Span.contains_iff.1 hheld
  have houter : n.fullSpan.contains s = true := Span.contains_iff.2 (by omega)
  rw [hmiss] at houter
  cases houter

end Search

end Node

end Tree

/-- **The smallest element around a stretch of text.**  Let a span begin within a node of a tree.
If tokens of the node, trivia included, hold the span, then the one of them that reaches past its
beginning is found.  If none does, but the node does with its trivia, then a node below it is found,
or the node itself, which holds the span while no node below the one found does.  And else the node
itself is found. -/
theorem covering_of_built [Alphabet] {tree : Tree}
    (h : (∃ limits text diagnostics, parseWithin limits text = .ok ⟨tree, diagnostics⟩) ∨
      ∃ text events, Tree.ofEvents? text events = .ok tree) :
    ∀ n ∈ tree.root.descendants, ∀ s : Span, n.fullSpan.start ≤ s.start →
      s.start < n.fullSpan.stop →
      ((∃ t ∈ n.tokens, t.span.contains s = true) →
        ∃ t ∈ n.tokens, n.covering s = .token t ∧ t.span.contains s = true ∧ s.start < t.span.stop ∧
          ∀ u ∈ n.tokens, u.span.contains s = true → s.start < u.span.stop → u = t) ∧
      ((∀ t ∈ n.tokens, t.span.contains s = false) →
        (n.fullSpan.contains s = true → ∃ m ∈ n.descendants, n.covering s = .node m ∧
          m.fullSpan.contains s = true ∧
          ∀ c ∈ m.nodes, ∀ d ∈ c.descendants, d.fullSpan.contains s = false) ∧
        (n.fullSpan.contains s = false → n.covering s = .node n)) := by
  obtain ⟨text, root, rfl⟩ := Tree.exists_stem_of_built h
  intro n hn s hstart hstop
  have hlaid : ∀ d ∈ n.descendants, d.LaidOut := fun d hd =>
    Tree.laidOut_ofStem text root d (Tree.Node.mem_descendants_trans hd hn)
  have htiled : ∀ d ∈ n.descendants, d.Tiled := fun d hd =>
    Tree.tiled_ofStem text root d (Tree.Node.mem_descendants_trans hd hn)
  obtain ⟨right, chain, hsearch⟩ := Tree.Node.exists_search hlaid htiled hstart hstop
  have hcovering := hsearch.covering
  refine ⟨fun ⟨t, ht, hholds⟩ => ?_, fun hnone => ?_⟩
  · have hright := hsearch.contains_of_mem ht hholds
    rw [if_pos hright] at hcovering
    exact ⟨right, hsearch.mem, hcovering, hright, hsearch.stop, fun u hu hu' hpast =>
      hsearch.only u hu (Span.contains_iff.1 hu').1 hpast⟩
  · have hright := hnone right hsearch.mem
    rw [hright, if_neg Bool.false_ne_true] at hcovering
    refine ⟨fun hself => ?_, fun hmiss => ?_⟩
    · have hwide := hsearch.start_lt_stop hright
      exact ⟨_, (hsearch.node_minimal hwide hself rfl).1, hcovering,
        (hsearch.node_minimal hwide hself rfl).2⟩
    · rw [hsearch.find?_eq_none hmiss] at hcovering
      exact hcovering

/-- A sign and the blank behind it lie in no token, but in the sum. -/
theorem covering_of_built_sum : ∃ p, parseWithin {} "a + b;".toList = .ok p ∧
    ∃ m ∈ p.tree.root.descendants, p.tree.root.covering ⟨2, 4⟩ = .node m ∧
      m.fullSpan.contains ⟨2, 4⟩ = true ∧
      ∀ c ∈ m.nodes, ∀ d ∈ c.descendants, d.fullSpan.contains ⟨2, 4⟩ = false := by
  obtain ⟨p, hp, -⟩ := exists_parseWithin (Limits.endless_maxDepth _) "a + b;".toList
  have hplace : ((parseWithin {} "a + b;".toList).toOption.any fun p =>
      p.tree.root.fullSpan == ⟨0, 6⟩ &&
        p.tree.root.tokens.all fun t => !t.span.contains ⟨2, 4⟩) = true := by
    decide +kernel
  rw [hp] at hplace
  simp only [Except.toOption, Option.any_some, Bool.and_eq_true, beq_iff_eq, List.all_eq_true,
    Bool.not_eq_true'] at hplace
  obtain ⟨hspan, htokens⟩ := hplace
  have hcovering := covering_of_built (.inl ⟨_, _, _, hp⟩) p.tree.root List.mem_cons_self ⟨2, 4⟩
    (by rw [hspan]; decide) (by rw [hspan]; decide)
  exact ⟨p, hp, (hcovering.2 htokens).1 (by rw [hspan]; decide)⟩

end ActionScript
