import ActionScript.Proofs.ForHeads.Loops
import ActionScript.Proofs.Navigation.Descent
import ActionScript.Proofs.Sessions

/-!
# `in` in the heads of loops

What is known of the shapes of a parse is read off its tree: every operation with `in` in the head
of a loop is sheltered there, and a loop that runs over no collection has no `in` behind its head.

* `Tree.Node.ShelteredIn`: brackets or an inner slot stand between a node and one below it.
* `forHeads_of_parseWithin`: **in the head of a `for` the word `in` belongs to the loop.**
-/

set_option autoImplicit false

namespace ActionScript

namespace Tree.Node

/-! ## Shelter -/

/-- An operation between two operands with the operator `in`. -/
def IsIn (n : Node) : Prop :=
  n.kind = .binaryExpr ∧ ∃ t, Element.token t ∈ n.elements ∧ t.kind = .inKw

/-- A node below another one, or that one itself, stands in brackets there, or in the index of a
subscript, the condition of a filter or the consequence of a conditional. -/
def ShelteredIn (m c : Node) : Prop :=
  ∃ g ∈ c.descendants, (g.kind ∈ Kind.brackets ∧ m ∈ g.descendants) ∨
    ∃ d ∈ g.nodes, (∃ f ∈ g.kind.innerSlot?, d.field = some f) ∧ m ∈ d.descendants

theorem ShelteredIn.of_mem_nodes {m c d : Node} (h : m.ShelteredIn d) (hd : d ∈ c.nodes) :
    m.ShelteredIn c := by
  obtain ⟨g, hg, hm⟩ := h
  exact ⟨g, mem_descendants.2 (.inr ⟨d, hd, hg⟩), hm⟩

/-- A token of a node has one of the shapes that the node was laid out from. -/
theorem exists_shape_of_mem_tokens {n : Node} {p : Progress} {kids : List Shape}
    (hchildren : n.children = (p.layAll kids).1) {t : Token} (ht : .token t ∈ n.elements) :
    ∃ leading text trailing, .token t.kind t.field leading text trailing ∈ kids := by
  obtain ⟨s, hs, hshape⟩ : ∃ s ∈ kids, (Element.token t).HasShape s :=
    exists_rel_of_mem (isMadeOf_of_children hchildren).elements.flip ht
  cases s with
  | token kind field leading text trailing =>
    rw [Element.HasShape] at hshape
    obtain ⟨u, heq, rfl, rfl, -⟩ := hshape
    obtain rfl := Element.token.inj heq
    exact ⟨leading, text, trailing, hs⟩
  | node kind field inner =>
    rw [Element.HasShape] at hshape
    obtain ⟨n, heq, -⟩ := hshape
    cases heq

/-- No operation with `in` stands open in what leaves `in` to the loop. -/
theorem not_isIn_of_leavesIn {c : Node} {p : Progress} {kids : List Shape}
    (hchildren : c.children = (p.layAll kids).1)
    (h : ∀ s ∈ kids, s.LeavesIn ∨ s.IsInner c.kind) : ¬c.IsIn := by
  rintro ⟨hkind, t, ht, hin⟩
  obtain ⟨leading, text, trailing, hmem⟩ := exists_shape_of_mem_tokens hchildren ht
  rcases h _ hmem with hleaves | ⟨f, hf, -⟩
  · exact Shape.leavesIn_token.1 hleaves hin
  · rw [hkind] at hf
    cases hf

/-- **What leaves `in` to the loop shelters every operation with `in`.** -/
theorem shelteredIn_of_leavesIn {c m : Node} {p : Progress} {kids : List Shape}
    (hchildren : c.children = (p.layAll kids).1) (h : (Shape.node c.kind c.field kids).LeavesIn)
    (hm : m ∈ c.descendants) (hin : m.IsIn) : m.ShelteredIn c := by
  rcases Shape.leavesIn_node.1 h with hbrackets | hkids
  · exact ⟨c, mem_descendants.2 (.inl rfl), .inl ⟨hbrackets, hm⟩⟩
  · rcases mem_descendants.1 hm with rfl | ⟨d, hd, hm⟩
    · exact absurd hin (not_isIn_of_leavesIn hchildren hkids)
    · obtain ⟨q, inner, hmem, hinner, -⟩ := exists_shape_of_mem_nodes hchildren hd
      rcases hkids _ hmem with hleaves | hslot
      · exact (shelteredIn_of_leavesIn hinner hleaves hm hin).of_mem_nodes hd
      · exact ⟨c, mem_descendants.2 (.inl rfl), .inr ⟨d, hd, hslot, hm⟩⟩
termination_by sizeOf kids
decreasing_by
  have hlt := List.sizeOf_lt_of_mem hmem
  rw [Shape.node.sizeOf_spec] at hlt
  omega

end Tree.Node

/-! ## Every parse -/

/-- **In the head of a `for` the word `in` belongs to the loop.**  Whatever the text, erroneous or
not: in the head of a loop each operation with `in` stands in brackets, or in an index, a condition
or a consequence, which is itself inside of the head; and where a loop runs over no collection, the
word `in` does not come next behind its head. -/
theorem forHeads_of_parseWithin [Alphabet] {limits : Limits} {text : Text} {p : Parse}
    (h : parseWithin limits text = .ok p) :
    ∀ n ∈ p.tree.root.descendants, n.kind ∈ Grammar.forKinds → ∀ c ∈ n.nodes,
      c.field = some .left ∨ c.field = some .initializer →
      (∀ m ∈ c.descendants, m.IsIn → m.ShelteredIn c) ∧
      (n.kind = .forStmt → ∃ q, Place.of? text c.fullSpan.stop = some q ∧ q.seesIn = false) := by
  intro n hn hkind c hc hfield
  obtain ⟨front, rest, q, kids, htext, hoffset, hchildren, hreserved⟩ :=
    Tree.Node.stands_of_parseWithin h (State.lays_run limits text) n hn
  obtain ⟨before, inner, behind, rfl, ⟨r, hinner⟩, hstop⟩ := Tree.Node.exists_child hchildren hc
  obtain ⟨hleaves, hsees⟩ := hreserved hkind before _ behind rfl hfield
  refine ⟨fun m hm hin => Tree.Node.shelteredIn_of_leavesIn hinner hleaves hm hin, fun hfor => ?_⟩
  have hbefore : text = (front ++ Shape.sourceAll (before ++ [.node c.kind c.field inner])) ++
      (Shape.sourceAll behind ++ rest) := by
    rw [htext, List.append_cons, Shape.sourceAll_append _ behind, List.append_assoc,
      List.append_assoc]
  refine ⟨⟨c.fullSpan.stop, Shape.sourceAll behind ++ rest⟩, ?_, hsees hfor⟩
  rw [hstop, hoffset, ← Text.size_append, hbefore, Place.of?_append]

/-- `in` stands in brackets and in an index of one head; the other loop runs over a collection. -/
theorem forHeads_of_parseWithin_brackets : ∃ p,
    parseWithin {} "for (var i = (a in b), c = d[e in f]; i; i) for (x in y in z);".toList = .ok p ∧
    (∃ n ∈ p.tree.root.descendants, n.kind = .forStmt ∧ ∃ c ∈ n.nodes, c.field = some .initializer ∧
      ∃ m ∈ c.descendants, m.kind = .binaryExpr) ∧
    ∀ n ∈ p.tree.root.descendants, n.kind ∈ Grammar.forKinds → ∀ c ∈ n.nodes,
      c.field = some .left ∨ c.field = some .initializer →
      (∀ m ∈ c.descendants, m.IsIn → m.ShelteredIn c) ∧
      (n.kind = .forStmt → ∃ q, Place.of?
        "for (var i = (a in b), c = d[e in f]; i; i) for (x in y in z);".toList
          c.fullSpan.stop = some q ∧
        q.seesIn = false) := by
  obtain ⟨p, hp, -⟩ := exists_parseWithin (Limits.endless_maxDepth 256)
    "for (var i = (a in b), c = d[e in f]; i; i) for (x in y in z);".toList
  obtain ⟨n, hn, htest⟩ := exists_descendant hp (fun n => n.kind == .forStmt && n.nodes.any fun c =>
    c.field == some .initializer && c.descendants.any fun m => m.kind == .binaryExpr)
    (by decide +kernel)
  simp only [Bool.and_eq_true, List.any_eq_true, beq_iff_eq] at htest
  exact ⟨p, hp, ⟨n, hn, htest⟩, forHeads_of_parseWithin hp⟩

end ActionScript
