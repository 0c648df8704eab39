import ActionScript.Proofs.Markup.Tags
import ActionScript.Proofs.Navigation.Descent
import ActionScript.Proofs.Trimming
import ActionScript.Tree.Cursor

/-!
# Where cursors go

A cursor knows the node it was made for, what it stands on, and how deep that is below the node.
The depth is what keeps it there: at depth zero it stands on the node itself, and no move leads
beside or above it.  Moving down first, else on, else up and on, it comes past all that a walk
through the node tells.

* `Cursor.go`, `Cursor.after`: what a move does, and what several moves do.
* `Cursor.Seated`: the invariant; `Cursor.Seated.move`, `Cursor.Seated.after`: **every move keeps
  it.**
* `Cursor.Seated.exists_place`: what the siblings and the parent of a cursor are.
* `Cursor.Tours`, `Cursor.tours_walk`: **going depth first a cursor visits what a walk tells.**
* `confined_of_parseWithin`: all of that for the nodes of every parse.
-/

set_option autoImplicit false

namespace ActionScript

namespace Tree

namespace Cursor

/-! ## Moves -/

/-- Whether the cursor moves, and where it is then.  If it cannot move it stays. -/
def go (c : Cursor) (m : Move) : Bool × Cursor :=
  match c.move? m with
  | some d => (true, d)
  | none => (false, c)

/-- Where the cursor is after some moves, one after the other. -/
def after (c : Cursor) (ms : List Move) : Cursor := ms.foldl (fun c m => (c.go m).2) c

theorem go_eq_true {c d : Cursor} {m : Move} : c.go m = (true, d) ↔ c.move? m = some d := by
  rw [go]
  cases c.move? m <;> simp

theorem go_of_not_moved {c : Cursor} {m : Move} (h : (c.go m).1 = false) : (c.go m).2 = c := by
  rw [go] at h ⊢
  cases hmove : c.move? m with
  | none => rfl
  | some d =>
    rw [hmove] at h
    cases h

/-- The element under the cursor lies below the node that the cursor was made for, as deep as the
cursor says. -/
def Seated (c : Cursor) : Prop := c.home.Reaches c.depth c.here

section
variable {c d : Cursor} {k : Nat}

theorem seated_ofNode (n : Node) : (ofNode n).Seated := .here

/-- Moving down to one of the children. -/
theorem Seated.down {e : Element} (h : c.Seated) (he : e ∈ c.below) :
    Seated { c with here := e, depth := c.depth + 1 } := by
  obtain ⟨home, here, depth⟩ := c
  cases here with
  | token t => cases he
  | node m => exact .child h he

/-- **What is around a cursor below its node**: it stands on a child of a node one step less below,
which the way up leads to, and the siblings are the other children. -/
theorem Seated.exists_place (h : c.Seated) (hdepth : c.depth = k + 1) :
    ∃ (m : Node) (slot : Nat), c.home.Reaches k (.node m) ∧ m.elements[slot]? = some c.here ∧
      c.nextSibling? = m.elements[slot + 1]?.map (fun e => { c with here := e }) ∧
      c.prevSibling? = (if slot = 0 then none else m.elements[slot - 1]?).map
        (fun e => { c with here := e }) ∧
      c.parent? = some { c with here := .node m, depth := k } := by
  rw [Seated, hdepth] at h
  obtain ⟨m, slot, hm, hslot⟩ := h.exists_parent
  have hplace := Node.isChildAt_of_getElem? hslot
  have hne : c.depth ≠ 0 := by omega
  refine ⟨m, slot, hm, hslot, ?_, ?_, ?_⟩
  · rw [nextSibling?, if_neg hne, hplace.next]
  · rw [prevSibling?, if_neg hne, hplace.prev]
  · rw [parent?, if_neg hne, hplace.parent, hdepth]
    rfl

/-- At its node a cursor has neither siblings nor a parent. -/
theorem confined_of_depth (h : c.depth = 0) :
    c.nextSibling? = none ∧ c.prevSibling? = none ∧ c.parent? = none := by
  rw [nextSibling?, prevSibling?, parent?, if_pos h, if_pos h, if_pos h]
  exact ⟨rfl, rfl, rfl⟩

theorem depth_cases (c : Cursor) : c.depth = 0 ∨ ∃ k, c.depth = k + 1 := by
  cases c.depth with
  | zero => exact .inl rfl
  | succ k => exact .inr ⟨k, rfl⟩

theorem Seated.next (h : c.Seated) (hnext : c.nextSibling? = some d) :
    d.Seated ∧ d.home = c.home ∧ d.prevSibling? = some c := by
  rcases c.depth_cases with hdepth | ⟨k, hdepth⟩
  · rw [(confined_of_depth hdepth).1] at hnext
    cases hnext
  · obtain ⟨m, slot, hm, hslot, hsibling, -⟩ := h.exists_place hdepth
    rw [hsibling, Option.map_eq_some_iff] at hnext
    obtain ⟨e, he, rfl⟩ := hnext
    have hplace := Node.isChildAt_of_getElem? he
    refine ⟨?_, rfl, ?_⟩
    · rw [Seated, hdepth]
      exact .child hm (List.mem_of_getElem? he)
    · rw [prevSibling?, if_neg (show c.depth ≠ 0 by omega), hplace.prev,
        if_neg (Nat.succ_ne_zero slot), Nat.add_sub_cancel, hslot]
      rfl

theorem Seated.prev (h : c.Seated) (hprev : c.prevSibling? = some d) :
    d.Seated ∧ d.home = c.home ∧ d.nextSibling? = some c := by
  rcases c.depth_cases with hdepth | ⟨k, hdepth⟩
  · rw [(confined_of_depth hdepth).2.1] at hprev
    cases hprev
  · obtain ⟨m, slot, hm, hslot, -, hsibling, -⟩ := h.exists_place hdepth
    rw [hsibling, Option.map_eq_some_iff] at hprev
    obtain ⟨e, he, rfl⟩ := hprev
    cases slot with
    | zero => cases he
    | succ slot =>
      have hplace := Node.isChildAt_of_getElem? he
      refine ⟨?_, rfl, ?_⟩
      · rw [Seated, hdepth]
        exact .child hm (List.mem_of_getElem? he)
      · rw [nextSibling?, if_neg (show c.depth ≠ 0 by omega), hplace.next,
          Nat.add_sub_cancel, hslot]
        rfl

theorem Seated.up (h : c.Seated) (hparent : c.parent? = some d) :
    d.Seated ∧ d.home = c.home ∧ c.depth = d.depth + 1 := by
  rcases c.depth_cases with hdepth | ⟨k, hdepth⟩
  · rw [(confined_of_depth hdepth).2.2] at hparent
    cases hparent
  · obtain ⟨m, slot, hm, -, -, -, hup⟩ := h.exists_place hdepth
    rw [hup] at hparent
    cases hparent
    exact ⟨hm, rfl, hdepth⟩

/-- **Every move keeps a cursor below its node.** -/
theorem Seated.move {m : Move} (h : c.Seated) (hmove : c.move? m = some d) :
    d.Seated ∧ d.home = c.home := by
  cases m with
  | firstChild =>
    obtain ⟨e, he, rfl⟩ := Option.map_eq_some_iff.1 hmove
    exact ⟨h.down (List.mem_of_head? he), rfl⟩
  | firstChildFor offset =>
    obtain ⟨e, he, rfl⟩ := Option.map_eq_some_iff.1 hmove
    exact ⟨h.down (List.mem_of_find?_eq_some he), rfl⟩
  | nextSibling => exact ⟨(h.next hmove).1, (h.next hmove).2.1⟩
  | prevSibling => exact ⟨(h.prev hmove).1, (h.prev hmove).2.1⟩
  | parent => exact ⟨(h.up hmove).1, (h.up hmove).2.1⟩
  | reset =>
    cases hmove
    exact ⟨seated_ofNode _, rfl⟩

theorem Seated.go (h : c.Seated) (m : Move) : (c.go m).2.Seated ∧ (c.go m).2.home = c.home := by
  rw [Cursor.go]
  cases hmove : c.move? m with
  | none => exact ⟨h, rfl⟩
  | some d => exact h.move hmove

/-- **However it is moved, a cursor stays below its node.** -/
theorem Seated.after (h : c.Seated) (ms : List Move) :
    (c.after ms).Seated ∧ (c.after ms).home = c.home := by
  induction ms generalizing c with
  | nil => exact ⟨h, rfl⟩
  | cons m ms ih =>
    obtain ⟨hseated, hhome⟩ := h.go m
    obtain ⟨hafter, hsame⟩ := ih hseated
    exact ⟨hafter, hsame.trans hhome⟩

end

/-! ## Depth first -/

theorem depth_lt_of_parent? {c d : Cursor} (h : c.parent? = some d) : d.depth < c.depth := by
  rcases c.depth_cases with hdepth | ⟨k, hdepth⟩
  · rw [(confined_of_depth hdepth).2.2] at h
    cases h
  · rw [parent?, if_neg (by omega), Option.map_eq_some_iff] at h
    obtain ⟨m, -, rfl⟩ := h
    show c.depth - 1 < c.depth
    omega

/-- Moves to the next sibling, or else up until there is one. -/
def onward? (c : Cursor) : Option Cursor :=
  match c.nextSibling? with
  | some d => some d
  | none =>
    match _h : c.parent? with
    | some d => d.onward?
    | none => none
termination_by c.depth
decreasing_by exact depth_lt_of_parent? _h

theorem onward?_eq (c : Cursor) : c.onward? = c.nextSibling?.or (c.parent?.bind onward?) := by
  rw [onward?]
  cases c.nextSibling? with
  | some d => rfl
  | none =>
    show (match _h : c.parent? with | some d => d.onward? | none => none) = c.parent?.bind onward?
    split
    · next d hparent => rw [hparent, Option.bind_some]
    · next hparent => rw [hparent, Option.bind_none]

/-- Moves to the first child, or else onward. -/
def deeper? (c : Cursor) : Option Cursor :=
  match c.firstChild? with
  | some d => some d
  | none => c.onward?

/-- Going depth first from where it stands, the cursor visits these elements until it cannot go
on. -/
inductive Tours : Cursor → List Element → Prop
  | last {c : Cursor} : c.deeper? = none → Tours c [c.here]
  | more {c d : Cursor} {es : List Element} :
      c.deeper? = some d → Tours d es → Tours c (c.here :: es)

theorem Tours.unique {c : Cursor} {es fs : List Element} (h₁ : c.Tours es) (h₂ : c.Tours fs) :
    es = fs := by
  induction h₁ generalizing fs with
  | last hnone =>
    cases h₂ with
    | last => rfl
    | more hsome => rw [hnone] at hsome; cases hsome
  | more hsome _ ih =>
    cases h₂ with
    | last hnone => rw [hsome] at hnone; cases hnone
    | more hsome' h₂ =>
      rw [hsome] at hsome'
      cases hsome'
      rw [ih h₂]

/-- Onward from where it stands, the cursor visits these elements: none if it cannot go on. -/
def Resumes (c : Cursor) (es : List Element) : Prop :=
  match c.onward? with
  | some d => d.Tours es
  | none => es = []

theorem Resumes.tours {c : Cursor} {es : List Element} (h : c.Resumes es) (hbelow : c.below = []) :
    c.Tours (c.here :: es) := by
  have hdeeper : c.deeper? = c.onward? := by rw [deeper?, firstChild?, hbelow]; rfl
  rw [Resumes, ← hdeeper] at h
  cases hc : c.deeper? with
  | none =>
    rw [hc] at h
    obtain rfl : es = [] := h
    exact .last hc
  | some d =>
    rw [hc] at h
    exact .more hc h

end Cursor

/-- The node that a step enters, or the token that it meets. -/
def Step.element? : Step → Option Element
  | .enter n => some (.node n)
  | .token t => some (.token t)
  | .leave _ => none

/-- The elements that the steps come to, nodes when they are entered. -/
def Step.elements (steps : List Step) : List Element := steps.filterMap Step.element?

theorem Step.elements_append (ss ts : List Step) :
    elements (ss ++ ts) = elements ss ++ elements ts :=
  List.filterMap_append

theorem Node.elements_walk (n : Node) :
    Step.elements n.walk = .node n :: Step.elements (n.walkFrom 0 n.children) := by
  show Element.node n :: Step.elements (_ ++ [_]) = _
  rw [Step.elements_append]
  exact congrArg (_ :: ·) (List.append_nil _)

namespace Cursor

section
variable {h : Node} {k : Nat} {es : List Element}

/-- From a node whose first child tours the walk through the children, the cursor tours the walk
through the node. -/
theorem tours_node {n : Node} (hresume : Resumes ⟨h, .node n, k⟩ es)
    (hchildren : ∀ i, n.children.head? = some i →
      Tours ⟨h, n.element 0 i, k + 1⟩ (Step.elements (n.walkFrom 0 n.children) ++ es)) :
    Tours ⟨h, .node n, k⟩ (Step.elements n.walk ++ es) := by
  rw [Node.elements_walk]
  cases hkids : n.children with
  | nil =>
    rw [Node.walkFrom]
    exact hresume.tours (show n.elements = [] by rw [Node.elements, hkids]; rfl)
  | cons i is =>
    have hdeeper : deeper? ⟨h, .node n, k⟩ = some ⟨h, n.element 0 i, k + 1⟩ := by
      have hfirst : n.elements.head? = some (n.element 0 i) := by
        rw [Node.elements, hkids, List.mapIdx_cons]
        rfl
      rw [deeper?, firstChild?, below, hfirst]
      rfl
    rw [← hkids]
    exact .more hdeeper (hchildren i (by rw [hkids]; rfl))

/-- Onward from a child leads to the next one, and from the last one onward from the node. -/
theorem resumes_child {n : Node} {slot : Nat} {i : Item} {is : List Item}
    (hslot : n.children.drop slot = i :: is) (hresume : Resumes ⟨h, .node n, k⟩ es)
    (hnext : ∀ j, is.head? = some j →
      Tours ⟨h, n.element (slot + 1) j, k + 1⟩ (Step.elements (n.walkFrom (slot + 1) is) ++ es)) :
    Resumes ⟨h, n.element slot i, k + 1⟩ (Step.elements (n.walkFrom (slot + 1) is) ++ es) := by
  have hplace := n.isChildAt_element slot i
  have hrest : n.children[slot + 1]? = is.head? := by
    rw [← List.head?_drop, ← List.drop_drop, hslot]
    rfl
  have hsibling : nextSibling? ⟨h, n.element slot i, k + 1⟩ =
      is.head?.map fun j => ⟨h, n.element (slot + 1) j, k + 1⟩ := by
    rw [nextSibling?, if_neg (Nat.succ_ne_zero k), hplace.next, ← Node.elementAt?_eq,
      Node.elementAt?, hrest, Option.map_map]
    rfl
  have hparent : parent? ⟨h, n.element slot i, k + 1⟩ = some ⟨h, .node n, k⟩ := by
    rw [parent?, if_neg (Nat.succ_ne_zero k), hplace.parent]
    rfl
  rw [Resumes, onward?_eq, hsibling, hparent]
  cases is with
  | nil =>
    rw [Node.walkFrom]
    exact hresume
  | cons j js => exact hnext j rfl

mutual

theorem tours_walkOf (n : Node) (slot : Nat) (i : Item) {k : Nat} {es : List Element}
    (hresume : Resumes ⟨h, n.element slot i, k⟩ es) :
    Tours ⟨h, n.element slot i, k⟩ (Step.elements (n.walkOf slot i) ++ es) := by
  cases i with
  | token c =>
    rw [Node.walkOf]
    exact hresume.tours rfl
  | node info children =>
    rw [Node.walkOf]
    exact tours_node hresume fun i hfirst =>
      tours_walkFrom (n.child slot info children) 0 children rfl hfirst hresume

/-- **From a child the cursor tours the walk through it and those behind it**, and then goes on as
it would from their parent. -/
theorem tours_walkFrom (n : Node) (slot : Nat) (is : List Item) (hslot : n.children.drop slot = is)
    {i : Item} (hfirst : is.head? = some i) {k : Nat} {es : List Element}
    (hresume : Resumes ⟨h, .node n, k⟩ es) :
    Tours ⟨h, n.element slot i, k + 1⟩ (Step.elements (n.walkFrom slot is) ++ es) := by
  cases is with
  | nil => cases hfirst
  | cons j is =>
    obtain rfl : j = i := Option.some.inj hfirst
    have hbehind : n.children.drop (slot + 1) = is := by
      rw [← List.drop_drop, hslot]
      rfl
    rw [Node.walkFrom, Step.elements_append, List.append_assoc]
    exact tours_walkOf n slot j (resumes_child hslot hresume fun _ hnext =>
      tours_walkFrom n (slot + 1) is hbehind hnext hresume)

end

/-- **Going depth first from a node a cursor visits what a walk from there tells**, in the same
order. -/
theorem tours_walk (n : Node) : (ofNode n).Tours (Step.elements n.walk) := by
  have hresume : Resumes ⟨n, .node n, 0⟩ [] := by
    rw [Resumes, onward?_eq]
    rfl
  have htour := tours_node hresume fun i hfirst => tours_walkFrom n 0 n.children rfl hfirst hresume
  rwa [List.append_nil] at htour

end

/-! ## Below a node -/

/-- The cursor stands on the node or below it, and never on trivia, as deep as it says and no
deeper; if a move fails nothing changes; up it can go exactly if it is not at the node itself; and a
move to a sibling is taken back by the move the other way. -/
structure Confined (n : Node) (c : Cursor) : Prop where
  inside : c.here = .node n ∨ ∃ m ∈ n.descendants, c.here ∈ m.elements
  significant : ∀ t, c.here = .token t → t.slot ≠ none ∧ t.isTrivia = false
  distance : ∀ k, n.Reaches k c.here ↔ k = c.depth
  unmoved : ∀ m, (c.go m).1 = false → (c.go m).2 = c
  parent : (c.go .parent).1 = true ↔ 0 < c.depth
  next : ∀ d, c.go .nextSibling = (true, d) → d.go .prevSibling = (true, c)
  prev : ∀ d, c.go .prevSibling = (true, d) → d.go .nextSibling = (true, c)

/-- A child token with no trivia among the clusters of its parent is none either. -/
theorem significant_of_mem_elements {m : Node} {t : Token} (ht : .token t ∈ m.elements)
    (hproper : ∀ c ∈ Item.clustersAll m.children, c.Proper) :
    t.slot ≠ none ∧ t.isTrivia = false := by
  obtain ⟨slot, hslot⟩ := List.getElem?_of_mem ht
  obtain ⟨i, hi, helement⟩ := Node.exists_item hslot
  cases i with
  | node info children => cases helement
  | token c =>
    obtain rfl := Element.token.inj helement
    have hc : c ∈ Item.clustersAll m.children :=
      Item.mem_clustersAll (List.mem_of_getElem? hi)
        (by rw [Item.clusters]; exact List.mem_cons_self)
    exact ⟨Option.some_ne_none slot, (hproper c hc).1⟩

/-- **A cursor that is seated below its node is confined there.** -/
theorem Seated.confined {n : Node} {c : Cursor} (h : c.Seated) (hhome : c.home = n)
    (hproper : ∀ m ∈ n.descendants, ∀ c ∈ Item.clustersAll m.children, c.Proper) :
    c.Confined n := by
  subst hhome
  have hinside : c.here = .node c.home ∨ ∃ m ∈ c.home.descendants, c.here ∈ m.elements := by
    rcases c.depth_cases with hdepth | ⟨k, hdepth⟩
    · rw [Seated, hdepth] at h
      exact .inl (Node.reaches_zero.1 h)
    · obtain ⟨m, slot, hm, hslot, -⟩ := h.exists_place hdepth
      exact .inr ⟨m, hm.mem_descendants, List.mem_of_getElem? hslot⟩
  refine ⟨hinside, fun t ht => ?_, fun k => ⟨fun hk => ?_, fun hk => hk ▸ h⟩,
    fun m => go_of_not_moved, ?_,
    fun d hd => go_eq_true.2 (h.next (go_eq_true.1 hd)).2.2,
    fun d hd => go_eq_true.2 (h.prev (go_eq_true.1 hd)).2.2⟩
  · rcases hinside with hhere | ⟨m, hm, hhere⟩
    · rw [hhere] at ht
      cases ht
    · exact significant_of_mem_elements (ht ▸ hhere) (hproper m hm)
  · have hlevel := hk.level
    rw [Node.Reaches.level h] at hlevel
    omega
  · rcases c.depth_cases with hdepth | ⟨k, hdepth⟩
    · have hnone : c.move? .parent = none := (confined_of_depth hdepth).2.2
      rw [Cursor.go, hnone, hdepth]
      simp
    · obtain ⟨m, slot, -, -, -, -, hup⟩ := h.exists_place hdepth
      have hsome : c.move? .parent = some _ := hup
      rw [Cursor.go, hsome, hdepth]
      simp

end Cursor

end Tree

/-- **Cursors are confined, and see everything.**  However a cursor that was made for a node of a
parse is moved, it stays at or below that node.  Going depth first, by nothing but the moves to the
first child, to the next sibling and to the parent, it visits exactly the nodes and tokens that a
walk from the node comes to, in the same order. -/
theorem confined_of_parseWithin [Alphabet] {limits : Limits} {text : Text} {p : Parse}
    (h : parseWithin limits text = .ok p) : ∀ n ∈ p.tree.root.descendants,
      (∀ moves, ((Tree.Cursor.ofNode n).after moves).Confined n) ∧
      ∃ steps, (Tree.Walk.start n).Gives steps ∧
        ∀ es, (Tree.Cursor.ofNode n).Tours es ↔ es = Tree.Step.elements steps := by
  intro n hn
  refine ⟨fun moves => ?_, n.walk, Tree.Walk.gives_walk n, fun es => ?_⟩
  · obtain ⟨hseated, hhome⟩ := (Tree.Cursor.seated_ofNode n).after moves
    refine hseated.confined hhome fun m hm => ?_
    obtain ⟨-, -, -, -, -, -, -, -, -, -, hproper, -⟩ :=
      liesIn_of_parseWithin h m (Tree.Node.mem_descendants_trans hm hn)
    exact hproper
  · have htour := Tree.Cursor.tours_walk n
    exact ⟨fun hes => hes.unique htour, fun hes => hes ▸ htour⟩

/-- A cursor on a statement that has another one behind it. -/
theorem confined_of_parseWithin_statement : ∃ p n, parseWithin {} "a = 1; b;".toList = .ok p ∧
    n ∈ p.tree.root.nodes ∧
    ((Tree.Cursor.ofNode n).after [.firstChild, .nextSibling, .nextSibling, .parent,
      .nextSibling]).Confined n := by
  obtain ⟨p, hp, -⟩ := exists_parseWithin (Limits.endless_maxDepth _) "a = 1; b;".toList
  have hfirst :
      ((parseWithin {} "a = 1; b;".toList).toOption.any fun p =>
        !p.tree.root.nodes.isEmpty) = true := by
    decide +kernel
  rw [hp] at hfirst
  obtain ⟨n, ns, hnodes⟩ : ∃ n ns, p.tree.root.nodes = n :: ns := by
    cases hnodes : p.tree.root.nodes with
    | nil => simp [Except.toOption, hnodes] at hfirst
    | cons n ns => exact ⟨n, ns, rfl⟩
  have hn : n ∈ p.tree.root.nodes := hnodes ▸ List.mem_cons_self
  exact ⟨p, n, hp, hn, (confined_of_parseWithin hp n
    (Tree.Node.mem_descendants.2 (.inr ⟨n, hn, List.mem_cons_self⟩))).1 _⟩

end ActionScript
