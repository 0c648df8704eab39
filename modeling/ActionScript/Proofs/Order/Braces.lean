import ActionScript.Proofs.Order.Files
import ActionScript.Proofs.Semicolons.Trees

/-!
# Closing braces in a tree

A closing brace stands at the end of what it closes, or alone in an error node of the file that
reports it.  Apart from the place of a missing name of an import, an error node holds no others, but
for those that close something in an annotation that no declaration follows.

* `Tree.Node.IsStray`: an error node around a closing brace that closes nothing.
* `rCurly_of_parseWithin`: **where closing braces stand.**
-/

set_option autoImplicit false

namespace ActionScript

namespace Progress

theorem layAll_token (p : Progress) (kind : Kind) (field : Option Field) (leading : List Trivia)
    (text : Text)
    (trailing : List Trivia) : (p.layAll [.token kind field leading text trailing]).1 =
      [.token (p.cluster kind field leading text trailing).1] := by
  simp only [layAll, lay]

end Progress

namespace Tree

/-! ## Elements -/

/-- The tokens of an element, trivia excluded. -/
def Element.significantTokens : Element → List Token
  | .node n => n.significantTokens
  | .token t => [t]

namespace Node

variable {n : Node}

theorem filter_clusterTokens (slot : Nat) {c : Cluster} (hc : c.Proper) :
    (n.clusterTokens slot c).filter (fun t => !t.isTrivia) = [n.token slot c] := by
  have htrivia {ls : List Leaf} (h : ∀ l ∈ ls, l.kind.isTrivia = true) :
      (ls.map n.trivia).filter (fun t => !t.isTrivia) = [] := by
    rw [List.filter_eq_nil_iff]
    intro t ht
    obtain ⟨l, hl, rfl⟩ := List.mem_map.1 ht
    simpa [Token.isTrivia, Token.kind, trivia] using h l hl
  have htoken : (n.token slot c).isTrivia = false := hc.1
  rw [clusterTokens, List.filter_append, List.filter_cons, htrivia hc.2.1, htrivia hc.2.2, htoken]
  rfl

theorem filter_tokensFrom {items : List Item} (slots : Nat → Nat) {slot : Nat}
    (hslots : ∀ i, slots i = slot + i) (hproper : ∀ c ∈ Item.clustersAll items, c.Proper) :
    (n.tokensFrom slot items).filter (fun t => !t.isTrivia) =
      (items.mapIdx fun i => n.element (slots i)).flatMap Element.significantTokens := by
  induction items generalizing slot slots with
  | nil =>
    rw [tokensFrom]
    rfl
  | cons i items ih =>
    rw [Item.clustersAll] at hproper
    rw [tokensFrom, List.filter_append, List.mapIdx_cons, List.flatMap_cons, hslots 0,
      ih (fun i => slots (i + 1)) (fun i => by rw [hslots]; omega) fun c hc =>
        hproper c (List.mem_append_right _ hc)]
    congr 1
    cases i with
    | token c =>
      rw [tokensOf]
      exact filter_clusterTokens _ (hproper c (by simp [Item.clusters]))
    | node info children =>
      rw [tokensOf]
      rfl

/-- The tokens of a node are those of its elements. -/
theorem significantTokens_eq_flatMap (hproper : ∀ c ∈ Item.clustersAll n.children, c.Proper) :
    n.significantTokens = n.elements.flatMap Element.significantTokens :=
  filter_tokensFrom id (fun i => (Nat.zero_add i).symm) hproper

end Node

namespace Element

variable {es : List Element} {ss : List Shape}

/-- The shapes on both sides of an element. -/
theorem exists_split_of_haveShapes {before behind : List Element} {e : Element}
    (h : List.Forall₂ HasShape (before ++ e :: behind) ss) :
    ∃ rs s qs, ss = rs ++ s :: qs ∧ e.HasShape s ∧ List.Forall₂ HasShape behind qs := by
  have hdrop := List.forall₂_drop before.length h
  rw [List.drop_left] at hdrop
  obtain ⟨s, qs, hs, hqs, hss⟩ := List.forall₂_cons_left_iff.1 hdrop
  exact ⟨ss.take before.length, s, qs, by rw [← hss, List.take_append_drop], hs, hqs⟩

theorem HasShape.isToken {t : Token} {s : Shape} (h : (Element.token t).HasShape s) {k : Kind}
    (hk : t.kind = k) : s.isToken k = true := by
  cases s with
  | token kind field leading text trailing =>
    rw [HasShape] at h
    obtain ⟨u, hu, hkind, -⟩ := h
    cases hu
    rw [← hk, hkind]
    exact beq_self_eq_true _
  | node kind field kids =>
    rw [HasShape] at h
    obtain ⟨n, hn, -⟩ := h
    cases hn

theorem HasShape.exists_node {e : Element} {s : Shape} (h : e.HasShape s) {k : Kind}
    (hs : s.isNode k = true) : ∃ m, e = .node m ∧ m.kind = k := by
  cases s with
  | token kind field leading text trailing => cases hs
  | node kind field kids =>
    rw [HasShape] at h
    obtain ⟨n, rfl, hkind, -⟩ := h
    exact ⟨n, rfl, hkind.trans (eq_of_beq hs)⟩

end Element

/-! ## Braces -/

namespace Node

variable {n c : Node} {p : Progress} {ss : List Shape}

/-- A closing brace ends the node that it stands in. -/
theorem closes_of_brace {q : Prop} (horderly : Shape.Orderly q n.kind ss) (hkind : n.kind ≠ .error)
    (hchildren : n.children = (p.layAll ss).1) {t : Token} (ht : .token t ∈ n.elements)
    (hcurly : t.kind = .rCurly) : n.kind ∈ Kind.braced ∧ n.elements.getLast? = some (.token t) := by
  have hshapes := (isMadeOf_of_children hchildren).elements
  obtain ⟨before, behind, hsplit⟩ := List.append_of_mem ht
  rw [hsplit] at hshapes ⊢
  obtain ⟨rs, s, qs, hss, hs, hqs⟩ := Element.exists_split_of_haveShapes hshapes
  obtain ⟨hbraced, rfl⟩ := horderly.brace hkind rs s qs hss (hs.isToken hcurly)
  obtain rfl := List.forall₂_nil_right_iff.1 hqs
  exact ⟨hbraced, by simp⟩

/-- An error node holds nothing but annotations. -/
def IsAnnotations (c : Node) : Prop := ∀ e ∈ c.elements, ∃ m, e = .node m ∧ m.kind = .metadata

/-- An error node that holds a closing brace and may stand anywhere holds annotations. -/
theorem isAnnotations_of_spares {field : Option Field}
    (hspares : (Shape.node .error field ss).Spares) (hchildren : c.children = (p.layAll ss).1)
    (hproper : ∀ l ∈ Item.clustersAll c.children, l.Proper)
    {t : Token} (ht : t ∈ c.significantTokens) (hcurly : t.kind = .rCurly) : c.IsAnnotations := by
  rcases hspares rfl with hnone | hmetadata
  · have hshow : Token.Show (c.tokensFrom 0 (p.layAll ss).1) (Shape.tokensAll ss) :=
      c.show_tokensFrom 0 (by rwa [← hchildren])
    rw [← hchildren] at hshow
    obtain ⟨s, hs, hof⟩ := exists_rel_of_mem (R := fun s t => Token.IsOf t s) hshow.isOf.flip ht
    exact absurd (hof.kind_eq ▸ hcurly) (hnone s hs)
  · intro e he
    obtain ⟨s, hs, hshape⟩ := exists_rel_of_mem (R := fun s e => Element.HasShape e s)
      (isMadeOf_of_children hchildren).elements.flip he
    exact hshape.exists_node (hmetadata s hs)

/-- A node that holds one token. -/
theorem elements_of_token {l : Cluster} (hchildren : c.children = [.token l])
    (hl : l.Proper) {t : Token}
    (ht : t ∈ c.significantTokens) : c.elements = [.token t] ∧ t = c.token 0 l := by
  have helements : c.elements = [.token (c.token 0 l)] := by
    rw [elements, hchildren]
    rfl
  rw [significantTokens_eq_flatMap (by rw [hchildren]; simp [Item.clustersAll, Item.clusters, hl]),
    helements] at ht
  obtain rfl : t = c.token 0 l := by simpa [Element.significantTokens] using ht
  exact ⟨helements, rfl⟩

/-- A closing brace that closes nothing: it stands alone in an error node, and is reported as
unmatched. -/
def IsStray (c : Node) (t : Token) (ds : List Diagnostic) : Prop :=
  c.elements = [.token t] ∧ ⟨.syntactic .unmatchedBrace, t.span⟩ ∈ ds

/-- What a file holds. -/
theorem brace_of_filed {ds : List Diagnostic} (hchildren : n.children = (p.layAll ss).1)
    (hp : p.offset = 0) (hproper : ∀ l ∈ Item.clustersAll n.children, l.Proper)
    (hkids : ∀ s ∈ ss, s.Common True ∨ s.IsStray) (hannounced : Shape.Announced ds ss.reverse)
    (hc : c ∈ n.nodes) (hkind : c.kind = .error) {t : Token} (ht : t ∈ c.significantTokens)
    (hcurly : t.kind = .rCurly) : c.IsStray t ds ∨ c.IsAnnotations := by
  obtain ⟨e, he, hnode⟩ := List.mem_filterMap.1 hc
  obtain ⟨slot, hslot, rfl⟩ := List.mem_mapIdx.1 he
  have hmem := List.getElem_mem hslot
  generalize n.children[slot] = i at hnode hmem
  have hlaid := hmem
  rw [hchildren] at hlaid
  obtain ⟨before, s, behind, rfl, rfl⟩ := Progress.exists_split_of_mem hlaid
  cases s with
  | token kind field leading text trailing =>
    rw [Progress.lay] at hnode
    cases hnode
  | node kind field kids =>
    rw [Progress.lay] at hnode hmem
    cases hnode
    obtain rfl : kind = .error := hkind
    have hcproper := fun l hl => hproper l (Item.mem_clustersAll hmem (by rwa [Item.clusters]))
    rcases hkids _ (List.mem_append_right _ List.mem_cons_self) with hcommon |
      ⟨_, leading, text, trailing, hs⟩
    · exact .inr (isAnnotations_of_spares (hcommon.error trivial) rfl hcproper ht hcurly)
    · cases hs
      set q : Progress :=
        { (p.layAll before).2 with nodes := (p.layAll before).2.nodes + 1 } with hq
      have hone := q.layAll_token .rCurly none leading text trailing
      obtain ⟨helements, htoken⟩ := elements_of_token hone
        (hcproper _ (by rw [hone]; simp [Item.clustersAll, Item.clusters])) ht
      have hoffset : q.offset = (Shape.sourceAll before).size := by
        rw [hq, Progress.offset_layAll, hp, Nat.zero_add]
      obtain ⟨-, -, -, htext, hstart, -⟩ := (q.shows_cluster .rCurly none leading text trailing).1
      have hspan : t.span = ⟨q.offset + (Trivia.flatten leading).size,
          q.offset + (Trivia.flatten leading).size + text.size⟩ := by
        rw [htoken]
        change Leaf.span (q.cluster .rCurly none leading text trailing).1.leaf = _
        rw [Leaf.span, htext, hstart]
      refine .inl ⟨helements, ?_⟩
      rw [hspan, hoffset]
      exact hannounced.mem_of_split

end Node

end Tree

/-- **Where closing braces stand.**  If rules have not been nested too deeply, a closing brace ends
a block, a body, a literal or an interpolation, or it is in an error node.  An error node with a
closing brace in it holds this alone, in the file, where it is reported as unmatched; or it holds
nothing but annotations, in which the brace closes something.  It may also stand in the place of the
missing name of an import. -/
theorem rCurly_of_parseWithin [Alphabet] {limits : Limits} {text : Text} {p : Parse}
    (h : parseWithin limits text = .ok p)
    (hdeep : ∀ d ∈ p.diagnostics, d.cause ≠ .syntactic .nestingTooDeep) :
    ∀ n ∈ p.tree.root.descendants,
      (n.kind ≠ .error → ∀ t, .token t ∈ n.elements → t.kind = .rCurly →
        n.kind ∈ Kind.braced ∧ n.elements.getLast? = some (.token t)) ∧
      ∀ c ∈ n.nodes, c.kind = .error → ∀ t ∈ c.significantTokens, t.kind = .rCurly →
        (n.kind = .sourceFile ∧ c.IsStray t p.diagnostics) ∨ c.IsAnnotations ∨
        (n.kind = .importStmt ∧ c.field = some .name) := by
  have ha := aborted_of_parseWithin h
  have hreports := diagnostics_of_parseWithin h
  obtain ⟨-, -, hproper⟩ := exists_renders h
  obtain ⟨modes, kids, last, hout⟩ := State.run_outcome ha
  obtain ⟨s, hfiled, hannounced, leading, eof, trailing, hchildren⟩ :=
    State.exists_statements (q := True)
    ⟨ha, fun _ d hd => hdeep d (by rw [hreports]; exact List.mem_reverse.2 hd)⟩
  have hlast : (Shape.token .eof none leading eof trailing).Common True :=
    ⟨rfl, rfl, fun _ => trivial⟩
  have hshapes := (Shape.node.inj (List.cons.inj (hout.children.symm.trans hchildren)).1).2.2
  rw [hout.parseWithin_eq ha, Except.ok.injEq] at h
  subst h
  have hkids : ∀ c ∈ s.children.reverse ++ [.token .eof none leading eof trailing],
      c.Every (Shape.Orderly True) ∧ (c.Common True ∨ c.IsStray) := by
    intro c hc
    rcases List.mem_append.1 hc with hc | hc
    · exact hfiled c (List.mem_reverse.1 hc)
    · obtain rfl := List.mem_singleton.1 hc
      exact ⟨Shape.every_token _ _ _ _ _, .inl hlast⟩
  replace hannounced : Shape.Announced (State.run limits text).reports.reverse
      (s.children.reverse ++ [Shape.token .eof none leading eof trailing]).reverse := by
    rw [List.reverse_append, List.reverse_reverse]
    exact ((hannounced trivial).mono fun d hd => List.mem_reverse.2 hd).cons_common hlast
  rw [hshapes] at hproper ⊢
  generalize s.children.reverse ++ [.token .eof none leading eof trailing] = shapes at *
  rw [Tree.root_ofStem] at hproper ⊢
  intro n hn
  rcases List.mem_cons.1 hn with rfl | hn
  · refine ⟨fun hkind t ht hcurly => Tree.Node.closes_of_brace
      (.of_filed fun c hc => (hkids c hc).2) hkind rfl
      ht hcurly, fun c hc hkind t ht hcurly => ?_⟩
    exact (Tree.Node.brace_of_filed rfl rfl hproper (fun c hc => (hkids c hc).2)
      hannounced hc hkind ht
      hcurly).imp (fun hstray => ⟨rfl, hstray⟩) .inl
  · obtain ⟨-, -, q, kids, -, -, -, hlaid, -, -, hproper, hevery⟩ :=
      Tree.Node.liesIn_of_mem_nodesFrom
      (P := Shape.Orderly True) (p := { nodes := 1 }) (Nat.le_refl 0)
        (Shape.everyIn_iff.2 fun c hc => (hkids c hc).1) hproper hn
    rw [Shape.every_node] at hevery
    refine ⟨fun hkind t ht hcurly => Tree.Node.closes_of_brace hevery.1 hkind hlaid ht hcurly,
      fun c hc hkind t ht hcurly => .inr ?_⟩
    obtain ⟨r, inner, hmem, hinner, hsub⟩ := Tree.Node.exists_shape_of_mem_nodes hlaid hc
    rw [hkind] at hmem
    rcases hevery.1.error trivial _ hmem with hspares | hname
    · exact .inl
        (Tree.Node.isAnnotations_of_spares hspares hinner
          (fun l hl => hproper l (hsub l hl)) ht hcurly)
    · exact .inr hname

/-- A block, and a brace that closes nothing behind it. -/
theorem rCurly_of_parseWithin_unmatched :
    ∃ p, parseWithin {} "if (a) \x7b b \x7d \x7d".toList = .ok p ∧
    (∀ d ∈ p.diagnostics, d.cause ≠ .syntactic .nestingTooDeep) ∧
    ∀ n ∈ p.tree.root.descendants,
      (n.kind ≠ .error → ∀ t, .token t ∈ n.elements → t.kind = .rCurly →
        n.kind ∈ Kind.braced ∧ n.elements.getLast? = some (.token t)) ∧
      ∀ c ∈ n.nodes, c.kind = .error → ∀ t ∈ c.significantTokens, t.kind = .rCurly →
        (n.kind = .sourceFile ∧ c.IsStray t p.diagnostics) ∨ c.IsAnnotations ∨
        (n.kind = .importStmt ∧ c.field = some .name) := by
  obtain ⟨p, hp, -⟩ :=
    exists_parseWithin (Limits.endless_maxDepth 256) "if (a) \x7b b \x7d \x7d".toList
  have hdeep : ((parseWithin {} "if (a) \x7b b \x7d \x7d".toList).toOption.all fun p =>
      p.diagnostics.all fun d => d.cause != .syntactic .nestingTooDeep) = true := by decide +kernel
  rw [hp] at hdeep
  have hdeep : ∀ d ∈ p.diagnostics, d.cause ≠ .syntactic .nestingTooDeep := fun d hd => by
    simpa using List.all_eq_true.1 hdeep d hd
  exact ⟨p, hp, hdeep, rCurly_of_parseWithin hp hdeep⟩

/-- Annotations that no declaration follows are an error as a whole, with the literals in them. -/
theorem rCurly_in_annotations : ∃ p, parseWithin {} "[A({} : )] class B {}".toList = .ok p ∧
    (∀ d ∈ p.diagnostics, d.cause ≠ .syntactic .nestingTooDeep) ∧
    ∃ n ∈ p.tree.root.descendants, n.kind = .error ∧
      ∃ t ∈ n.significantTokens, t.kind = .rCurly ∧ t.parent.kind = .objectLiteral := by
  obtain ⟨p, hp, -⟩ := exists_parseWithin (Limits.endless_maxDepth 256)
    "[A({} : )] class B {}".toList
  have hfound : ((parseWithin {} "[A({} : )] class B {}".toList).toOption.any fun p =>
      (p.diagnostics.all fun d => d.cause != .syntactic .nestingTooDeep) &&
      p.tree.root.descendants.any fun n => n.kind == .error &&
        n.significantTokens.any fun t => t.kind == .rCurly && t.parent.kind ==
          .objectLiteral) = true := by
    decide +kernel
  rw [hp] at hfound
  simp only [Except.toOption, Option.any_some, Bool.and_eq_true, List.all_eq_true, List.any_eq_true,
    bne_iff_ne, ne_eq, beq_iff_eq] at hfound
  exact ⟨p, hp, hfound⟩

end ActionScript
