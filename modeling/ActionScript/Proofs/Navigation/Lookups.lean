import ActionScript.Proofs.Navigation.Arena

/-!
# Looking a tree up in its rows

Each question about what is around a node or a token is answered from other parts of the rows: the
parent and the place from its own row, the siblings from the stretch of the parent, the tokens from
the numbers of the first and the last one, and the trivia of a token by counting from it.  The
answers are those of the tree.

* `Arena.parentOf?`, `Arena.next?`, `Arena.tokensOf`, `Arena.leadingOf`: some of the questions.
* `Arena.Mirrors.exists_row`: where the rows keep a node.
* `Arena.Mirrors.answers`: **the rows of a tree answer as the tree does.**
* `ofEvents?_linked`: every tree that a stream tells hangs together, and so do its rows.
-/

set_option autoImplicit false

namespace ActionScript

namespace Arena

/-! ## Questions -/

section
variable (a : Arena)

/-- The number of a node, if that is referred to. -/
def Ref.node? : Ref → Option Nat
  | .node i => some i
  | .token _ => none

/-- The number of the parent. -/
def parentOf? : Ref → Option Nat
  | .node i => a.nodes[i]?.bind NodeRow.parent
  | .token i => a.tokens[i]?.map TokenRow.parent

/-- The place among the children of the parent. -/
def slotOf? : Ref → Option Nat
  | .node i => a.nodes[i]?.map NodeRow.slot
  | .token i => a.tokens[i]?.bind TokenRow.slot

/-- The children of a node. -/
def childrenOf (i : Nat) : List Ref :=
  match a.nodes[i]? with
  | none => []
  | some row => (a.children.drop row.firstChild).take row.childCount

/-- The next child of the parent. -/
def next? (r : Ref) : Option Ref := do
  let parent ← a.parentOf? r
  let slot ← a.slotOf? r
  (a.childrenOf parent)[slot + 1]?

/-- The child of the parent before this one. -/
def prev? (r : Ref) : Option Ref := do
  let parent ← a.parentOf? r
  match ← a.slotOf? r with
  | 0 => none
  | slot + 1 => (a.childrenOf parent)[slot]?

/-- The next child node of the parent. -/
def nextNode? (i : Nat) : Option Nat := do
  let parent ← a.parentOf? (.node i)
  let slot ← a.slotOf? (.node i)
  ((a.childrenOf parent).drop (slot + 1)).findSome? Ref.node?

/-- The last child node of the parent before this one. -/
def prevNode? (i : Nat) : Option Nat := do
  let parent ← a.parentOf? (.node i)
  let slot ← a.slotOf? (.node i)
  ((a.childrenOf parent).take slot).reverse.findSome? Ref.node?

/-- The places of the tokens of a node. -/
def tokensOf (i : Nat) : List Nat :=
  match a.nodes[i]? with
  | none => []
  | some row => List.range' row.firstToken (row.endToken - row.firstToken)

/-- The places of the pieces of trivia in front of a token. -/
def leadingOf (i : Nat) : List Nat :=
  match a.tokens[i]? with
  | none => []
  | some row => List.range' (i - row.leading) row.leading

/-- The places of the pieces of trivia behind a token. -/
def trailingOf (i : Nat) : List Nat :=
  match a.tokens[i]? with
  | none => []
  | some row => List.range' (i + 1) row.trailing

/-- The place of the token before one.  The first place is not that of a token. -/
def prevToken? (i : Nat) : Option Nat := if 1 < i then some (i - 1) else none

/-- The place of the token behind one. -/
def nextToken? (i : Nat) : Option Nat := if i + 1 < a.tokens.length then some (i + 1) else none

end

/-! ## Rows of a tree -/

/-- The place of a token in the rows. -/
def place (t : Tree.Token) : Nat := t.leaf.index + 1

theorem exists_of_forall₂ {α β : Type} {R : α → β → Prop} {as : List α} {bs : List β}
    (h : List.Forall₂ R as bs) {i : Nat} {b : β} (hb : bs[i]? = some b) :
    ∃ a, as[i]? = some a ∧ R a b := by
  induction h generalizing i with
  | nil => cases hb
  | cons hab _ ih =>
    cases i with
    | zero =>
      cases hb
      exact ⟨_, rfl, hab⟩
    | succ i => exact ih hb

theorem getElem?_of_numbered {α : Type} {row : List α} {number : α → Nat} {x : α}
    (h : row.map number = List.range row.length) (hx : x ∈ row) : row[number x]? = some x := by
  obtain ⟨i, hi⟩ := List.getElem?_of_mem hx
  have hlt : i < row.length := (List.getElem?_eq_some_iff.1 hi).1
  have hplace := congrArg (·[i]?) h
  simp only [List.getElem?_map, hi, Option.map_some, List.getElem?_range hlt,
    Option.some.injEq] at hplace
  rw [hplace, hi]

end Arena

namespace Tree

/-- The nodes of a tree are numbered in the order of their list. -/
theorem map_index_descendants (text : Text) (root : Stem) :
    (ofStem text root).root.descendants.map (fun n => n.info.index) =
      List.range (ofStem text root).root.descendants.length := by
  have hnumbers : ((ofStem text root).root.nodesFrom 0 (ofStem text root).root.children).map
      (fun n => n.info.index) = List.range' 1 (Shape.nodeCountAll root.children.reverse) := by
    rw [← Node.filterMap_entered?_walkFrom]
    exact (ofStem text root).root.numbers_walkFrom 0 { nodes := 1 } root.children.reverse
  have hlength := congrArg List.length hnumbers
  rw [List.length_map, List.length_range'] at hlength
  rw [Node.descendants, List.map_cons, hnumbers, List.length_cons, hlength, List.range_eq_range',
    List.range'_succ]
  rfl

section
variable {text : Text} {root : Stem} {n p : Node}

/-- The parent of a node of a tree is one of its nodes. -/
theorem parent?_mem_descendants (h : n ∈ (ofStem text root).root.descendants)
    (hp : n.parent? = some p) : p ∈ (ofStem text root).root.descendants := by
  obtain ⟨k, hk⟩ := Node.exists_reaches h
  cases k with
  | zero =>
    obtain rfl := Element.node.inj (Node.reaches_zero.1 hk)
    cases hp
  | succ k =>
    obtain ⟨m, slot, hm, hslot⟩ := hk.exists_parent
    have hparent : n.parent? = some m := (Node.isChildAt_of_getElem? hslot).parent
    rw [hp] at hparent
    obtain rfl := Option.some.inj hparent
    exact hm.mem_descendants

end

/-- The element is one of the nodes or of the tokens of the tree. -/
def Holds (t : Tree) : Element → Prop
  | .node n => n ∈ t.root.descendants
  | .token u => u ∈ t.tokens

theorem Holds.parent {text : Text} {root : Stem} {e : Element} {p : Node}
    (he : (ofStem text root).Holds e)
    (hp : e.parent? = some p) : p ∈ (ofStem text root).root.descendants := by
  cases e with
  | node n => exact parent?_mem_descendants he hp
  | token u =>
    obtain rfl := Option.some.inj hp
    exact Node.parent_mem_descendants he

theorem Element.next?_eq (e : Element) :
    e.next? = e.parent?.bind fun p => e.slot?.bind fun slot => p.elements[slot + 1]? := by
  cases e with
  | node n =>
    simp only [← Node.elementAt?_eq]
    rfl
  | token t =>
    simp only [← Node.elementAt?_eq]
    rfl

theorem Element.prev?_eq (e : Element) : e.prev? = e.parent?.bind fun p => e.slot?.bind fun slot =>
    match slot with
    | 0 => none
    | slot + 1 => p.elements[slot]? := by
  cases e with
  | node n =>
    simp only [← Node.elementAt?_eq]
    rfl
  | token t =>
    simp only [← Node.elementAt?_eq]
    show t.prev? = t.slot.bind _
    rw [Token.prev?]
    cases t.slot with
    | none => rfl
    | some slot => cases slot <;> rfl

end Tree

namespace Arena

/-! ## Answers -/

/-- The rows give the answers of the tree: around every node and every token, and below the
nodes. -/
structure Answers (a : Arena) (t : Tree) : Prop where
  parent : ∀ e, t.Holds e → a.parentOf? (.of e) = e.parent?.map fun p => p.info.index
  slot : ∀ e p, t.Holds e → e.parent? = some p → a.slotOf? (.of e) = e.slot?
  next : ∀ e, t.Holds e → a.next? (.of e) = e.next?.map Ref.of
  prev : ∀ e, t.Holds e → a.prev? (.of e) = e.prev?.map Ref.of
  children : ∀ n ∈ t.root.descendants, a.childrenOf n.info.index = n.elements.map Ref.of
  nextNode : ∀ n ∈ t.root.descendants,
    a.nextNode? n.info.index = n.nextNode?.map fun m => m.info.index
  prevNode : ∀ n ∈ t.root.descendants,
    a.prevNode? n.info.index = n.prevNode?.map fun m => m.info.index
  tokens : ∀ n ∈ t.root.descendants, a.tokensOf n.info.index = n.tokens.map place
  leading : ∀ u ∈ t.tokens, a.leadingOf (place u) = u.leadingTokens.map place
  trailing : ∀ u ∈ t.tokens, a.trailingOf (place u) = u.trailingTokens.map place
  prevToken : ∀ u ∈ t.tokens, prevToken? (place u) = (t.prevToken? u).map place
  nextToken : ∀ u ∈ t.tokens, a.nextToken? (place u) = (t.nextToken? u).map place

section
variable {a : Arena} {text : Text} {root : Stem} {n : Tree.Node} {u : Tree.Token} {e : Tree.Element}

/-- The rows keep a node where its number says. -/
theorem Mirrors.exists_row (h : a.Mirrors (Tree.ofStem text root))
    (hn : n ∈ (Tree.ofStem text root).root.descendants) :
    ∃ row, a.nodes[n.info.index]? = some row ∧ Shows a.children row n :=
  exists_of_forall₂ h.nodes (getElem?_of_numbered (Tree.map_index_descendants text root) hn)

theorem Mirrors.getElem?_tokens (h : a.Mirrors (Tree.ofStem text root))
    (hu : u ∈ (Tree.ofStem text root).tokens) : a.tokens[place u]? = some (.of u) := by
  have hplace := getElem?_of_numbered (Tree.map_index_tokens text root) hu
  rw [h.tokens, place, List.getElem?_cons_succ, List.getElem?_map, hplace]
  rfl

theorem Mirrors.childrenOf_eq (h : a.Mirrors (Tree.ofStem text root))
    (hn : n ∈ (Tree.ofStem text root).root.descendants) :
    a.childrenOf n.info.index = n.elements.map Ref.of := by
  obtain ⟨row, hrow, hshows⟩ := h.exists_row hn
  have hprefix := List.prefix_iff_eq_take.1 hshows.children
  rw [List.length_map, ← hshows.childCount] at hprefix
  rw [childrenOf, hrow, hprefix]

theorem Mirrors.parentOf?_eq (h : a.Mirrors (Tree.ofStem text root))
    (he : (Tree.ofStem text root).Holds e) :
    a.parentOf? (.of e) = e.parent?.map fun p => p.info.index := by
  cases e with
  | node n =>
    obtain ⟨row, hrow, hshows⟩ := h.exists_row he
    rw [Ref.of, parentOf?, hrow]
    exact hshows.parent
  | token u =>
    have hrow := h.getElem?_tokens he
    rw [place] at hrow
    rw [Ref.of, parentOf?, hrow]
    rfl

/-- Below the root the rows keep the place of every element. -/
theorem Mirrors.slotOf?_eq {p : Tree.Node} (h : a.Mirrors (Tree.ofStem text root))
    (he : (Tree.ofStem text root).Holds e) (hp : e.parent? = some p) :
    a.slotOf? (.of e) = e.slot? := by
  cases e with
  | node n =>
    obtain ⟨row, hrow, hshows⟩ := h.exists_row he
    obtain ⟨slot, hslot⟩ : ∃ slot, n.slot? = some slot := by
      rw [Tree.Node.slot?]
      cases habove : n.above with
      | nil =>
        rw [Tree.Element.parent?, Tree.Node.parent?, habove] at hp
        cases hp
      | cons f above => exact ⟨f.slot, rfl⟩
    rw [Ref.of, slotOf?, hrow, Option.map_some, hshows.slot, Tree.Element.slot?, hslot]
    rfl
  | token u =>
    have hrow := h.getElem?_tokens he
    rw [place] at hrow
    rw [Ref.of, slotOf?, hrow]
    rfl

/-- **Whatever is read off the children around an element comes out the same in the rows.** -/
theorem Mirrors.around_eq {β : Type} (h : a.Mirrors (Tree.ofStem text root))
    (he : (Tree.ofStem text root).Holds e) (f : List Ref → Nat → Option β) :
    ((a.parentOf? (.of e)).bind fun i => (a.slotOf? (.of e)).bind fun slot =>
      f (a.childrenOf i) slot) =
      e.parent?.bind fun p => e.slot?.bind fun slot => f (p.elements.map Ref.of) slot := by
  rw [h.parentOf?_eq he]
  cases hp : e.parent? with
  | none => rfl
  | some p =>
    rw [Option.map_some, Option.bind_some, Option.bind_some, h.slotOf?_eq he hp,
      h.childrenOf_eq (he.parent hp)]

theorem Mirrors.next?_eq (h : a.Mirrors (Tree.ofStem text root))
    (he : (Tree.ofStem text root).Holds e) : a.next? (.of e) = e.next?.map Ref.of := by
  refine (h.around_eq he fun children slot => children[slot + 1]?).trans ?_
  rw [e.next?_eq]
  simp only [Option.map_bind, List.getElem?_map, Function.comp_def]

theorem Mirrors.prev?_eq (h : a.Mirrors (Tree.ofStem text root))
    (he : (Tree.ofStem text root).Holds e) : a.prev? (.of e) = e.prev?.map Ref.of := by
  refine (h.around_eq he fun children slot => match slot with
    | 0 => none
    | slot + 1 => children[slot]?).trans ?_
  rw [e.prev?_eq]
  simp only [Option.map_bind, Function.comp_def]
  congr 1
  funext p
  congr 1
  funext slot
  cases slot with
  | zero => rfl
  | succ slot => exact List.getElem?_map

theorem findSome?_node?_map (es : List Tree.Element) :
    (es.map Ref.of).findSome? Ref.node? =
      (es.findSome? Tree.Element.node?).map fun n => n.info.index := by
  induction es with
  | nil => rfl
  | cons e es ih =>
    cases e with
    | node n => rfl
    | token t => exact ih

theorem Mirrors.nextNode?_eq (h : a.Mirrors (Tree.ofStem text root))
    (hn : n ∈ (Tree.ofStem text root).root.descendants) :
    a.nextNode? n.info.index = n.nextNode?.map fun m => m.info.index := by
  refine (h.around_eq (e := .node n) hn fun children slot =>
    (children.drop (slot + 1)).findSome? Ref.node?).trans ?_
  simp only [← List.map_drop, findSome?_node?_map]
  rw [Tree.Node.nextNode?]
  simp only [bind, Option.map_bind, Function.comp_def]
  rfl

theorem Mirrors.prevNode?_eq (h : a.Mirrors (Tree.ofStem text root))
    (hn : n ∈ (Tree.ofStem text root).root.descendants) :
    a.prevNode? n.info.index = n.prevNode?.map fun m => m.info.index := by
  refine (h.around_eq (e := .node n) hn fun children slot =>
    (children.take slot).reverse.findSome? Ref.node?).trans ?_
  simp only [← List.map_take, ← List.map_reverse, findSome?_node?_map]
  rw [Tree.Node.prevNode?]
  simp only [bind, Option.map_bind, Function.comp_def]
  rfl

theorem Mirrors.tokensOf_eq (h : a.Mirrors (Tree.ofStem text root))
    (hn : n ∈ (Tree.ofStem text root).root.descendants) :
    a.tokensOf n.info.index = n.tokens.map place := by
  obtain ⟨row, hrow, hshows⟩ := h.exists_row hn
  have hcount : row.endToken - row.firstToken = n.tokens.length := by
    rw [hshows.endToken, Nat.add_sub_cancel_left]
  rw [tokensOf, hrow]
  show List.range' row.firstToken (row.endToken - row.firstToken) = _
  rw [hcount, ← hshows.tokens]
  rfl

/-! ## Trivia and neighbours -/

/-- Tokens in a row stand at places in a row. -/
theorem map_place_of_infix {before ts behind : List Tree.Token}
    (h : (Tree.ofStem text root).tokens = before ++ ts ++ behind) :
    ts.map place = List.range' (before.length + 1) ts.length := by
  have hindices := Tree.map_index_tokens text root
  rw [h, List.range_eq_range', List.map_append, List.map_append, List.length_append,
    List.length_append, ← List.range'_append_1, ← List.range'_append_1] at hindices
  obtain ⟨hfront, -⟩ := List.append_inj hindices (by simp)
  obtain ⟨-, hrun⟩ := List.append_inj hfront (by simp)
  rw [Nat.zero_add] at hrun
  rw [List.range'_succ_left, ← hrun, List.map_map]
  rfl

/-- A token stands in the row of all tokens with its trivia around it.  A piece of trivia has
none. -/
theorem exists_run (hu : u ∈ (Tree.ofStem text root).tokens) :
    ∃ before behind, (Tree.ofStem text root).tokens = before ++ u.run ++ behind := by
  by_cases hslot : u.slot = none
  · obtain ⟨w, ⟨-, -, huw⟩, -⟩ := Tree.existsUnique_owner hu hslot
    obtain ⟨l, rfl⟩ : ∃ l, u = w.parent.trivia l := by
      rw [Tree.Token.leadingTokens, Tree.Token.trailingTokens, ← List.map_append,
        List.mem_map] at huw
      obtain ⟨l, -, hl⟩ := huw
      exact ⟨l, hl.symm⟩
    obtain ⟨before, behind, hrow⟩ := List.append_of_mem hu
    refine ⟨before, behind, ?_⟩
    rw [hrow, List.append_assoc]
    rfl
  · have hruns := (Tree.ofStem text root).root.flatMap_run_tokens
    have hplaced : u ∈ (Tree.ofStem text root).root.tokens.filter fun t => t.slot.isSome :=
      List.mem_filter.2 ⟨hu, Option.isSome_iff_ne_none.2 hslot⟩
    obtain ⟨before, behind, hrow⟩ := List.append_of_mem hplaced
    refine ⟨before.flatMap Tree.Token.run, behind.flatMap Tree.Token.run, ?_⟩
    rw [Tree.tokens, ← hruns, hrow, List.flatMap_append, List.flatMap_cons, List.append_assoc]

/-- The places around a token are those of its trivia. -/
theorem Mirrors.trivia_eq (h : a.Mirrors (Tree.ofStem text root))
    (hu : u ∈ (Tree.ofStem text root).tokens) :
    a.leadingOf (place u) = u.leadingTokens.map place ∧
      a.trailingOf (place u) = u.trailingTokens.map place := by
  obtain ⟨before, behind, hrow⟩ := exists_run hu
  rw [Tree.Token.run] at hrow
  have hfront : (Tree.ofStem text root).tokens =
      before ++ u.leadingTokens ++ (u :: (u.trailingTokens ++ behind)) := by simp [hrow]
  have hback : (Tree.ofStem text root).tokens =
      (before ++ u.leadingTokens ++ [u]) ++ u.trailingTokens ++ behind := by simp [hrow]
  have hlead := map_place_of_infix hfront
  have htrail := map_place_of_infix hback
  have hindex := Tree.index_of_split hfront
  have hleading : u.leadingTokens.length = u.leading.length := List.length_map _
  have htrailing : u.trailingTokens.length = u.trailing.length := List.length_map _
  rw [List.length_append] at hindex
  rw [leadingOf, trailingOf, h.getElem?_tokens hu]
  refine ⟨?_, ?_⟩
  · have hfirst : place u - u.leading.length = before.length + 1 := by
      rw [place]
      omega
    rw [hlead, hleading, ← hfirst]
    rfl
  · have hfirst : place u + 1 = (before ++ u.leadingTokens ++ [u]).length + 1 := by
      rw [place, hindex, List.length_append, List.length_append]
      rfl
    rw [htrail, htrailing, ← hfirst]
    rfl

theorem prevToken?_eq (hu : u ∈ (Tree.ofStem text root).tokens) :
    prevToken? (place u) = ((Tree.ofStem text root).prevToken? u).map place := by
  obtain ⟨before, behind, hrow⟩ := List.append_of_mem hu
  have hindex := Tree.index_of_split hrow
  rw [(Tree.row_of_split hrow).2, prevToken?, place, hindex]
  rcases List.eq_nil_or_concat' before with rfl | ⟨front, v, rfl⟩
  · rfl
  · have hprev : (Tree.ofStem text root).tokens = front ++ v :: u :: behind := by simp [hrow]
    have hv := Tree.index_of_split hprev
    rw [List.getLast?_concat, Option.map_some, place, hv, List.length_append, List.length_singleton,
      if_pos (by omega)]
    rfl

theorem Mirrors.nextToken?_eq (h : a.Mirrors (Tree.ofStem text root))
    (hu : u ∈ (Tree.ofStem text root).tokens) :
    a.nextToken? (place u) = ((Tree.ofStem text root).nextToken? u).map place := by
  obtain ⟨before, behind, hrow⟩ := List.append_of_mem hu
  have hindex := Tree.index_of_split hrow
  have hlength : a.tokens.length = before.length + 1 + behind.length + 1 := by
    rw [h.tokens, List.length_cons, List.length_map, hrow]
    simp
    omega
  rw [(Tree.row_of_split hrow).1, nextToken?, place, hindex, hlength]
  cases behind with
  | nil => rw [if_neg (by simp)]; rfl
  | cons v behind =>
    have hnext : (Tree.ofStem text root).tokens = (before ++ [u]) ++ v :: behind := by simp [hrow]
    have hv := Tree.index_of_split hnext
    rw [List.head?_cons, Option.map_some, place, hv, if_pos (by simp)]
    simp

/-- **The rows of a tree answer as the tree does.** -/
theorem Mirrors.answers (h : a.Mirrors (Tree.ofStem text root)) :
    a.Answers (Tree.ofStem text root) where
  parent _ he := h.parentOf?_eq he
  slot _ _ he hp := h.slotOf?_eq he hp
  next _ he := h.next?_eq he
  prev _ he := h.prev?_eq he
  children _ hn := h.childrenOf_eq hn
  nextNode _ hn := h.nextNode?_eq hn
  prevNode _ hn := h.prevNode?_eq hn
  tokens _ hn := h.tokensOf_eq hn
  leading _ hu := (h.trivia_eq hu).1
  trailing _ hu := (h.trivia_eq hu).2
  prevToken _ hu := prevToken?_eq hu
  nextToken _ hu := h.nextToken?_eq hu

end

end Arena

/-- **What is told hangs together.**  In the tree of an accepted stream the links between nodes,
children, tokens and trivia agree, and its tokens without a place are the trivia, while all others
were told as tokens.  A stream is accepted exactly if it can be written down in rows; these keep
every node and every token of the tree as it is, and answer all questions as the tree does. -/
theorem ofEvents?_linked (text : Text) (events : List Event) :
    ((∃ a, Arena.ofEvents? text events = .ok a) ↔ ∃ tree, Tree.ofEvents? text events = .ok tree) ∧
    ∀ tree, Tree.ofEvents? text events = .ok tree →
      tree.Linked ∧ (∀ u ∈ tree.tokens, u.Told events) ∧
      ∀ a, Arena.ofEvents? text events = .ok a → a.Mirrors tree ∧ a.Answers tree := by
  obtain ⟨hiff, hmirrors⟩ := Arena.ofEvents?_iff_tree text events
  refine ⟨hiff, fun tree htree => ?_⟩
  have hmirror := fun a ha => hmirrors a tree ha htree
  obtain ⟨root, rfl, rfl, rfl⟩ := Tree.ofEvents?_eq_ok.1 htree
  exact ⟨Tree.linked_ofStem _ root, fun _ => Tree.told_of_mem_tokens, fun a ha =>
    ⟨hmirror a ha, (hmirror a ha).answers⟩⟩

/-- A letter with a blank before it, and an empty node beside another letter. -/
theorem ofEvents?_linked_letters : ∃ tree a,
    Tree.ofEvents? [' ', 'é', 'b']
      [.start .sourceFile none, .token .name none [⟨.whitespace, 1⟩] 2 [], .start .error none,
        .start .error none, .finish, .token .name none [] 1 [], .finish, .finish] = .ok tree ∧
    Arena.ofEvents? [' ', 'é', 'b']
      [.start .sourceFile none, .token .name none [⟨.whitespace, 1⟩] 2 [], .start .error none,
        .start .error none, .finish, .token .name none [] 1 [], .finish, .finish] = .ok a ∧
    tree.Linked ∧ a.Answers tree := by
  obtain ⟨tree, htree⟩ : ∃ tree, Tree.ofEvents? [' ', 'é', 'b'] [.start .sourceFile none,
      .token .name none [⟨.whitespace, 1⟩] 2 [], .start .error none, .start .error none, .finish,
      .token .name none [] 1 [], .finish, .finish] = .ok tree := ⟨_, rfl⟩
  obtain ⟨hiff, hlinked⟩ := ofEvents?_linked [' ', 'é', 'b'] _
  obtain ⟨a, ha⟩ := hiff.2 ⟨tree, htree⟩
  obtain ⟨hlinks, -, hrows⟩ := hlinked tree htree
  exact ⟨tree, a, htree, ha, hlinks, (hrows a ha).2⟩

end ActionScript
