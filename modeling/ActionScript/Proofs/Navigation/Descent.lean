import ActionScript.Proofs.Lossless
import ActionScript.Proofs.Replay
import ActionScript.Proofs.Tiling

/-!
# Down and up in a tree

A child carries its parent and its place among the parent's children, so what is found below a node
leads up to it again, in as many steps as it took to come down.

* `Tree.Node.isChildAt_of_getElem?`: what a child knows of its parent and of its siblings.
* `Tree.Node.tokens_eq`: the tokens of a node are those of its children.
* `Tree.Node.Reaches`: the elements that lie so many steps below a node.
* `Tree.Node.exists_ancestors_append`: **from below a node the way up leads through it.**
* `Tree.Node.LaidOut.index_lt`: nodes below a node have higher numbers.
-/

set_option autoImplicit false

namespace ActionScript.Tree

/-! ## Children -/

/-- The place of an element among its parent's children.  The root and trivia have none. -/
def Element.slot? : Element → Option Nat
  | .node n => n.slot?
  | .token t => t.slot

namespace Node

variable {n m d : Node} {e : Element} {slot : Nat}

theorem elementAt?_eq (n : Node) (slot : Nat) : n.elementAt? slot = n.elements[slot]? := by
  rw [elementAt?, elements, List.getElem?_mapIdx]

/-- What a child knows of its parent and of its siblings. -/
structure IsChildAt (n : Node) (slot : Nat) (e : Element) : Prop where
  parent : e.parent? = some n
  place : e.slot? = some slot
  next : e.next? = n.elements[slot + 1]?
  prev : e.prev? = if slot = 0 then none else n.elements[slot - 1]?

theorem isChildAt_element (n : Node) (slot : Nat) (i : Item) :
    n.IsChildAt slot (n.element slot i) := by
  cases i with
  | token c =>
    refine ⟨rfl, rfl, n.elementAt?_eq _, ?_⟩
    cases slot with
    | zero => rfl
    | succ slot => exact n.elementAt?_eq slot
  | node info children =>
    refine ⟨rfl, rfl, n.elementAt?_eq _, ?_⟩
    cases slot with
    | zero => rfl
    | succ slot => exact n.elementAt?_eq slot

theorem exists_item (h : n.elements[slot]? = some e) :
    ∃ i, n.children[slot]? = some i ∧ e = n.element slot i := by
  rw [← elementAt?_eq, elementAt?, Option.map_eq_some_iff] at h
  obtain ⟨i, hi, rfl⟩ := h
  exact ⟨i, hi, rfl⟩

/-- **A child knows its parent, its place there and the siblings beside it.** -/
theorem isChildAt_of_getElem? (h : n.elements[slot]? = some e) : n.IsChildAt slot e := by
  obtain ⟨i, -, rfl⟩ := exists_item h
  exact isChildAt_element n slot i

theorem parent?_of_mem_elements (h : e ∈ n.elements) : e.parent? = some n := by
  obtain ⟨slot, hslot⟩ := List.getElem?_of_mem h
  exact (isChildAt_of_getElem? hslot).parent

theorem mem_nodes : d ∈ n.nodes ↔ .node d ∈ n.elements := by
  constructor
  · intro h
    obtain ⟨e, he, hnode⟩ := List.mem_filterMap.1 h
    cases e with
    | node e =>
      obtain rfl := Option.some.inj hnode
      exact he
    | token t => cases hnode
  · intro h
    exact List.mem_filterMap.2 ⟨.node d, h, rfl⟩

theorem mem_nodesFrom {is : List Item} : m ∈ n.nodesFrom slot is ↔
    ∃ d ∈ (is.mapIdx fun i => n.element (slot + i)).filterMap Element.node?, m ∈ d.descendants := by
  induction is generalizing slot with
  | nil => simp [nodesFrom]
  | cons i is ih =>
    have hshift : (is.mapIdx fun j => n.element (slot + (j + 1))) =
        is.mapIdx fun j => n.element (slot + 1 + j) := by
      simp [Nat.add_assoc, Nat.add_comm 1]
    rw [nodesFrom, List.mem_append, ih, List.mapIdx_cons, hshift]
    cases i with
    | token c => simp [nodesOf, element, Element.node?]
    | node info children => simp [nodesOf, element, Element.node?, descendants, child]

theorem mem_nodesFrom_children :
    m ∈ n.nodesFrom 0 n.children ↔ ∃ d ∈ n.nodes, m ∈ d.descendants := by
  rw [mem_nodesFrom]
  simp [nodes, elements]

/-- Below a node are itself and what is below its children. -/
theorem mem_descendants : m ∈ n.descendants ↔ m = n ∨ ∃ d ∈ n.nodes, m ∈ d.descendants := by
  rw [descendants, List.mem_cons, mem_nodesFrom_children]

/-- The children of a child are part of the children. -/
theorem sizeOf_children_lt (hd : d ∈ n.nodes) : sizeOf d.children < sizeOf n.children := by
  obtain ⟨e, he, hnode⟩ := List.mem_filterMap.1 hd
  obtain ⟨slot, hslot, rfl⟩ := List.mem_mapIdx.1 he
  have hmem := List.getElem_mem hslot
  generalize n.children[slot] = i at hnode hmem
  have hlt := List.sizeOf_lt_of_mem hmem
  cases i with
  | token c => cases hnode
  | node info kids =>
    cases hnode
    simp only [Item.node.sizeOf_spec] at hlt
    change sizeOf kids < _
    omega

/-- What is below a node is below all nodes that the node is below. -/
theorem mem_descendants_trans {r : Node} (hm : m ∈ n.descendants) (hn : n ∈ r.descendants) :
    m ∈ r.descendants := by
  rcases mem_descendants.1 hn with rfl | ⟨d, hd, hn⟩
  · exact hm
  · exact mem_descendants.2 (.inr ⟨d, hd, mem_descendants_trans hm hn⟩)
termination_by sizeOf r.children
decreasing_by exact sizeOf_children_lt hd

/-- **What every node hands down to its children holds everywhere below it.** -/
theorem descendants_induct {P : Node → Prop} {r : Node} (h : P r)
    (hchild : ∀ n d, P n → d ∈ n.nodes → P d) (hm : m ∈ r.descendants) : P m := by
  rcases mem_descendants.1 hm with rfl | ⟨d, hd, hm⟩
  · exact h
  · exact descendants_induct (hchild r d h hd) hchild hm
termination_by sizeOf r.children
decreasing_by exact sizeOf_children_lt hd

end Node

/-! ## Tokens -/

/-- A token with its pieces of trivia around it. -/
def Token.run (t : Token) : List Token := t.leadingTokens ++ t :: t.trailingTokens

/-- The tokens of an element: those of a node, and a token with its trivia. -/
def Element.tokens : Element → List Token
  | .node n => n.tokens
  | .token t => t.run

namespace Node

variable {n m d : Node} {t : Token}

theorem tokensOf_eq (n : Node) (slot : Nat) (i : Item) :
    n.tokensOf slot i = (n.element slot i).tokens := by
  cases i with
  | token c => rw [tokensOf]; rfl
  | node info children => rw [tokensOf]; rfl

/-- **The tokens of a node are those of its children**, one child after the other. -/
theorem tokens_eq (n : Node) : n.tokens = n.elements.flatMap Element.tokens := by
  have hfrom (is : List Item) (slot : Nat) :
      n.tokensFrom slot is = (n.elementsFrom slot is).flatMap Element.tokens := by
    induction is generalizing slot with
    | nil => rw [tokensFrom, elementsFrom]; rfl
    | cons i is ih => rw [tokensFrom, elementsFrom, List.flatMap_cons, tokensOf_eq, ih]
  rw [tokens, elements_eq]
  exact hfrom n.children 0

theorem mem_tokens_of_mem_nodes (ht : t ∈ d.tokens) (hd : d ∈ n.nodes) : t ∈ n.tokens := by
  rw [tokens_eq]
  exact List.mem_flatMap.2 ⟨.node d, mem_nodes.1 hd, ht⟩

theorem mem_tokens_of_mem_descendants (ht : t ∈ d.tokens) (hd : d ∈ n.descendants) :
    t ∈ n.tokens := by
  refine descendants_induct (P := fun d => ∀ t ∈ d.tokens, t ∈ n.tokens) (fun t ht => ht) ?_ hd t ht
  intro m d hm hd t ht
  exact hm t (mem_tokens_of_mem_nodes ht hd)

/-- A token of a node belongs to the node itself or to a node below it. -/
theorem parent_mem_descendants {n : Node} (ht : t ∈ n.tokens) : t.parent ∈ n.descendants := by
  have hcases := ht
  rw [tokens_eq, List.mem_flatMap] at hcases
  obtain ⟨e, he, hte⟩ := hcases
  cases e with
  | node d =>
    have hd := mem_nodes.2 he
    exact mem_descendants.2 (.inr ⟨d, hd, parent_mem_descendants hte⟩)
  | token u =>
    -- trivia belongs to the node of the token that it stands at
    have hparent : t.parent = u.parent := by
      rw [Element.tokens, Token.run, Token.leadingTokens, Token.trailingTokens, List.mem_append,
        List.mem_cons, List.mem_map, List.mem_map] at hte
      rcases hte with ⟨l, -, rfl⟩ | rfl | ⟨l, -, rfl⟩ <;> rfl
    have hu : u.parent = n := Option.some.inj (parent?_of_mem_elements he)
    rw [hparent, hu]
    exact List.mem_cons_self
termination_by sizeOf n.children
decreasing_by exact sizeOf_children_lt hd

end Node

/-! ## Steps below a node -/

/-- The number of nodes around a node. -/
def Node.level (n : Node) : Nat := n.above.length

/-- The number of nodes around an element. -/
def Element.level : Element → Nat
  | .node n => n.level
  | .token t => t.parent.level + 1

/-- The element lies so many steps below the node: it is the node, or the child of a node that lies
one step less below it. -/
inductive Node.Reaches (n : Node) : Nat → Element → Prop
  | here : Reaches n 0 (.node n)
  | child {k : Nat} {m : Node} {e : Element} :
      Reaches n k (.node m) → e ∈ m.elements → Reaches n (k + 1) e

namespace Node

variable {n m d : Node} {e : Element} {k : Nat}

theorem level_of_mem_elements (h : e ∈ n.elements) : e.level = n.level + 1 := by
  obtain ⟨slot, hslot, rfl⟩ := List.mem_mapIdx.1 h
  cases n.children[slot] <;> rfl

theorem reaches_zero : n.Reaches 0 e ↔ e = .node n := by
  constructor
  · rintro ⟨⟩
    rfl
  · rintro rfl
    exact .here

/-- What lies below a node knows its parent, one step less below. -/
theorem Reaches.exists_parent (h : n.Reaches (k + 1) e) :
    ∃ (m : Node) (slot : Nat), n.Reaches k (.node m) ∧ m.elements[slot]? = some e := by
  cases h with
  | child hparent he =>
    obtain ⟨slot, hslot⟩ := List.getElem?_of_mem he
    exact ⟨_, slot, hparent, hslot⟩

/-- The number of steps is the difference of the levels, so there is only one. -/
theorem Reaches.level (h : n.Reaches k e) : e.level = n.level + k := by
  induction h with
  | here => rfl
  | child _ he ih =>
    rw [level_of_mem_elements he]
    exact congrArg (· + 1) ih

theorem Reaches.mem_descendants (h : n.Reaches k (.node m)) : m ∈ n.descendants := by
  induction k generalizing m with
  | zero =>
    obtain rfl := Element.node.inj (reaches_zero.1 h)
    exact List.mem_cons_self
  | succ k ih =>
    obtain ⟨d, slot, hd, hslot⟩ := h.exists_parent
    have hm : m ∈ d.descendants :=
      Node.mem_descendants.2
        (.inr ⟨m, mem_nodes.2 (List.mem_of_getElem? hslot), List.mem_cons_self⟩)
    exact mem_descendants_trans hm (ih hd)

theorem exists_reaches (h : m ∈ n.descendants) : ∃ k, n.Reaches k (.node m) := by
  refine descendants_induct (P := fun m => ∃ k, n.Reaches k (.node m)) ⟨0, .here⟩ ?_ h
  rintro m d ⟨k, hm⟩ hd
  exact ⟨k + 1, .child hm (mem_nodes.1 hd)⟩

/-! ## The way up -/

theorem ancestors_of_mem_nodes (h : d ∈ n.nodes) : d.ancestors = d :: n.ancestors := by
  obtain ⟨slot, hslot⟩ := List.getElem?_of_mem (mem_nodes.1 h)
  obtain ⟨i, -, hi⟩ := exists_item hslot
  cases i with
  | token c => cases hi
  | node info children =>
    obtain rfl := Element.node.inj hi
    rfl

/-- On the way up the levels go down, one at a time. -/
theorem pairwise_level_ancestors (n : Node) :
    n.ancestors.Pairwise fun a b => b.level < a.level := by
  have hframes (above : List Frame) : (∀ a ∈ ofFrames above, a.level < above.length) ∧
      (ofFrames above).Pairwise fun a b => b.level < a.level := by
    induction above with
    | nil => exact ⟨by simp [ofFrames], .nil⟩
    | cons f above ih =>
      refine ⟨?_, List.pairwise_cons.2 ih⟩
      rintro a (_ | ⟨_, ha⟩)
      · exact Nat.lt_succ_self _
      · exact Nat.lt_succ_of_lt (ih.1 a ha)
  exact List.pairwise_cons.2 (hframes n.above)

/-- **From below a node the way up leads through it**, and before that through nodes below its
children. -/
theorem exists_ancestors_append (h : m ∈ n.descendants) :
    ∃ chain, m.ancestors = chain ++ n.ancestors ∧ ∀ a ∈ chain, ∃ d ∈ n.nodes,
      a ∈ d.descendants := by
  refine descendants_induct (P := fun m => ∃ chain, m.ancestors = chain ++ n.ancestors ∧
    ∀ a ∈ chain, ∃ d ∈ n.nodes, a ∈ d.descendants) ⟨[], rfl, by simp⟩ ?_ h
  rintro m c ⟨chain, hchain, hbelow⟩ hc
  refine ⟨c :: chain, by rw [ancestors_of_mem_nodes hc, hchain]; rfl, ?_⟩
  rintro a (_ | ⟨_, ha⟩)
  · cases chain with
    | nil =>
      -- then `m` is the node itself
      obtain rfl : m = n := (List.cons.inj hchain).1
      exact ⟨c, hc, List.mem_cons_self⟩
    | cons b chain =>
      obtain rfl : m = b := (List.cons.inj hchain).1
      obtain ⟨d, hd, hm⟩ := hbelow m List.mem_cons_self
      have hchild := Node.mem_descendants.2 (.inr ⟨c, hc, List.mem_cons_self⟩)
      exact ⟨d, hd, mem_descendants_trans hchild hm⟩
  · exact hbelow a ha

end Node

/-! ## Numbers -/

namespace Node

mutual

/-- A walk enters the nodes below a node in the order of their list. -/
theorem filterMap_entered?_walkOf (n : Node) (slot : Nat) (i : Item) :
    (n.walkOf slot i).filterMap Step.entered? = n.nodesOf slot i := by
  cases i with
  | token c => rw [walkOf, nodesOf]; rfl
  | node info children =>
    rw [walkOf, nodesOf]
    show _ :: List.filterMap Step.entered? (_ ++ [_]) = _
    rw [List.filterMap_append, filterMap_entered?_walkFrom _ 0 children]
    exact congrArg (_ :: ·) (List.append_nil _)

theorem filterMap_entered?_walkFrom (n : Node) (slot : Nat) (is : List Item) :
    (n.walkFrom slot is).filterMap Step.entered? = n.nodesFrom slot is := by
  cases is with
  | nil => rw [walkFrom, nodesFrom]; rfl
  | cons i is =>
    rw [walkFrom, nodesFrom, List.filterMap_append, filterMap_entered?_walkOf n slot i,
      filterMap_entered?_walkFrom n (slot + 1) is]

end

/-- The children of the node were laid out from shapes, and it knows what they were laid out to. -/
def LaidOut (n : Node) : Prop :=
  ∃ (p : Progress) (shapes : List Shape),
    n.children = (Progress.layAll { p with nodes := p.nodes + 1 } shapes).1 ∧
    n.info = p.info (Progress.layAll { p with nodes := p.nodes + 1 } shapes).2 n.kind
      n.field n.children

variable {n m d : Node}

theorem LaidOut.child (h : n.LaidOut) (hd : d ∈ n.nodes) : d.LaidOut := by
  obtain ⟨p, shapes, hchildren, -⟩ := h
  obtain ⟨slot, hslot⟩ := List.getElem?_of_mem (mem_nodes.1 hd)
  obtain ⟨i, hi, helement⟩ := exists_item hslot
  have hmem := List.mem_of_getElem? hi
  rw [hchildren] at hmem
  obtain ⟨before, s, behind, -, rfl⟩ := Progress.exists_split_of_mem hmem
  cases s with
  | token kind field leading text trailing =>
    rw [Progress.lay] at helement
    cases helement
  | node kind field kids =>
    rw [Progress.lay] at helement
    obtain rfl := Element.node.inj helement
    exact ⟨_, kids, rfl, rfl⟩

/-- **Nodes below the children of a node have higher numbers.** -/
theorem LaidOut.index_lt (h : n.LaidOut) (hm : m ∈ n.nodesFrom 0 n.children) :
    n.info.index < m.info.index := by
  obtain ⟨p, shapes, hchildren, hinfo⟩ := h
  have hnumber : m.info.index ∈ Step.numbers (n.walkFrom 0 n.children) := by
    rw [Step.numbers, filterMap_entered?_walkFrom]
    exact List.mem_map_of_mem hm
  rw [hchildren, numbers_walkFrom, List.mem_range'_1] at hnumber
  rw [hinfo]
  exact hnumber.1

/-- **The tokens of a node make up its full span**, one behind the other. -/
theorem LaidOut.contiguous (h : n.LaidOut) :
    Leaf.Contiguous n.fullSpan.start (n.tokens.map Token.leaf) n.fullSpan.stop := by
  obtain ⟨p, shapes, hchildren, hinfo⟩ := h
  have htokens := (tokens_of_layAll hchildren).1
  rw [fullSpan, hinfo]
  rwa [← Progress.offset_layAll] at htokens

end Node

/-! ## Trees -/

theorem laidOut_ofStem (text : Text) (root : Stem) :
    ∀ n ∈ (ofStem text root).root.descendants, n.LaidOut := fun _ hn =>
  Node.descendants_induct ⟨{}, root.children.reverse, rfl, rfl⟩ (fun _ _ h hd => h.child hd) hn

end ActionScript.Tree
