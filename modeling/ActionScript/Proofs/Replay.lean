import ActionScript.Proofs.Events
import ActionScript.Tree.Walk

/-!
# A walk replays what was told

A walk that is taken step by step keeps only the entered nodes and what is left of their children,
yet it tells the whole tree.  Over the tree of an accepted stream it tells that stream again.

* `Tree.Walk.Gives`: the steps that a walk gives until it is over.
* `Tree.Walk.gives_walk`: **a walk from a node gives the walk through it**.
* `Tree.Node.tells_walkFrom`, `Tree.Node.numbers_walkFrom`: over laid out shapes that tells their
  stream, and numbers the nodes in the order in which they are entered.
* `ofEvents?_iff_oneRoot`: the streams that are accepted, and their replay.
-/

set_option autoImplicit false

namespace ActionScript

namespace Tree

/-! ## Step by step -/

/-- Taken step by step, the walk gives these steps and is over then. -/
inductive Walk.Gives : Walk → List Step → Prop
  | stop {w : Walk} : w.next? = none → Gives w []
  | step {w v : Walk} {s : Step} {ss : List Step} :
      w.next? = some (s, v) → Gives v ss → Gives w (s :: ss)

/-- The children from the given place on, seen from their parent. -/
def Node.elementsFrom (n : Node) (slot : Nat) : List Item → List Element
  | [] => []
  | i :: is => n.element slot i :: n.elementsFrom (slot + 1) is

theorem Node.elements_eq (n : Node) : n.elements = n.elementsFrom 0 n.children := by
  have hfrom (is : List Item) (slot : Nat) :
      is.mapIdx (fun i => n.element (slot + i)) = n.elementsFrom slot is := by
    induction is generalizing slot with
    | nil => rfl
    | cons i is ih =>
      rw [List.mapIdx_cons, elementsFrom, ← ih]
      simp only [Nat.add_zero, Nat.add_assoc, Nat.add_comm 1]
  rw [elements, ← hfrom]
  simp only [Nat.zero_add]

namespace Walk

mutual

theorem gives_walkOf (n : Node) (slot : Nat) (i : Item) {more : List Element}
    {outer : List (Node × List Element)} {steps : List Step}
    (h : Gives ⟨none, (n, more) :: outer⟩ steps) :
    Gives ⟨none, (n, n.element slot i :: more) :: outer⟩ (n.walkOf slot i ++ steps) := by
  cases i with
  | token c =>
    rw [Node.walkOf]
    exact .step rfl h
  | node info children =>
    have hleave : Gives ⟨none, (n.child slot info children, []) :: (n, more) :: outer⟩
        (.leave (n.child slot info children) :: steps) := .step rfl h
    have hbelow := gives_walkFrom (n.child slot info children) 0 children hleave
    rw [List.append_nil] at hbelow
    have helements : (n.child slot info children).elements =
        (n.child slot info children).elementsFrom 0 children := Node.elements_eq _
    rw [← helements] at hbelow
    rw [Node.walkOf, List.cons_append, List.append_assoc]
    exact .step rfl hbelow

/-- With the children from some place on still to come, a walk gives the walk through them and then
goes on. -/
theorem gives_walkFrom (n : Node) (slot : Nat) (is : List Item) {more : List Element}
    {outer : List (Node × List Element)} {steps : List Step}
    (h : Gives ⟨none, (n, more) :: outer⟩ steps) :
    Gives ⟨none, (n, n.elementsFrom slot is ++ more) :: outer⟩ (n.walkFrom slot is ++ steps) := by
  cases is with
  | nil =>
    rw [Node.walkFrom]
    exact h
  | cons i is =>
    rw [Node.walkFrom, List.append_assoc]
    exact gives_walkOf n slot i (gives_walkFrom n (slot + 1) is h)

end

/-- **A walk from a node gives the walk through it.** -/
theorem gives_walk (n : Node) : Gives (start n) n.walk := by
  have hover : Gives ⟨none, [(n, [])]⟩ [.leave n] := .step rfl (.stop rfl)
  have hbelow := gives_walkFrom n 0 n.children hover
  rw [List.append_nil, ← Node.elements_eq] at hbelow
  exact .step rfl hbelow

end Walk

/-! ## Telling the stream again -/

/-- The kinds and lengths of pieces of trivia, as a tree shows them. -/
def Step.pieces (ls : List Leaf) : List (Kind × Nat) := ls.map fun l => (l.kind, l.text.size)

/-- The kinds and lengths of pieces of trivia, as a stream tells them. -/
def Event.pieces (ms : List Measure) : List (Kind × Nat) := ms.map fun m => (m.kind.kind, m.size)

/-- The step tells the event: the same kinds, fields and lengths, and the same pieces of trivia. -/
def Step.Tells : Step → Event → Prop
  | .enter n, .start kind field => n.kind = kind ∧ n.field = field
  | .token t, .token kind field leading size trailing =>
    t.kind = kind ∧ t.field = field ∧ t.leaf.text.size = size ∧
      Step.pieces t.leading = Event.pieces leading ∧ Step.pieces t.trailing = Event.pieces trailing
  | .leave _, .finish => True
  | _, _ => False

/-- The node that a step enters. -/
def Step.entered? : Step → Option Node
  | .enter n => some n
  | .leave _ | .token _ => none

/-- The numbers of the nodes that the steps enter. -/
def Step.numbers (steps : List Step) : List Nat :=
  (steps.filterMap Step.entered?).map fun n => n.info.index

theorem Step.pieces_of_showPieces {ts : List Trivia} {ls : List Leaf} {offset : Nat}
    (h : Leaf.ShowPieces offset ts ls) : pieces ls = Event.pieces (ts.map Trivia.measure) := by
  induction ts generalizing offset ls with
  | nil =>
    cases ls with
    | nil => rfl
    | cons l ls => exact h.elim
  | cons t ts ih =>
    cases ls with
    | nil => exact h.elim
    | cons l ls =>
      obtain ⟨hkind, htext, -, hrest⟩ := h
      have := ih hrest
      simp_all [pieces, Event.pieces, Trivia.measure]

namespace Node

mutual

theorem tells_walkOf (n : Node) (slot : Nat) (p : Progress) (s : Shape) :
    List.Forall₂ Step.Tells (n.walkOf slot (p.lay s).1) s.events := by
  cases s with
  | token kind field leading text trailing =>
    obtain ⟨hlead, hkind, hfield, htext, -, htrail⟩ :=
      (p.shows_cluster kind field leading text trailing).1
    rw [Progress.lay, walkOf, Shape.events]
    refine .cons ⟨hkind, hfield, congrArg Text.size htext, ?_, ?_⟩ .nil
    · exact Step.pieces_of_showPieces hlead
    · exact Step.pieces_of_showPieces htrail
  | node kind field children =>
    rw [Progress.lay, walkOf, Shape.events]
    have hbelow := tells_walkFrom (n.child slot (Progress.info p
      (Progress.layAll { p with nodes := p.nodes + 1 } children).2 kind field
      (Progress.layAll { p with nodes := p.nodes + 1 } children).1)
      (Progress.layAll { p with nodes := p.nodes + 1 } children).1) 0
      { p with nodes := p.nodes + 1 } children
    exact .cons ⟨rfl, rfl⟩ (List.rel_append hbelow (.cons trivial .nil))

/-- **The walk through laid out shapes tells their stream.** -/
theorem tells_walkFrom (n : Node) (slot : Nat) (p : Progress) (ss : List Shape) :
    List.Forall₂ Step.Tells (n.walkFrom slot (p.layAll ss).1) (Shape.eventsAll ss) := by
  cases ss with
  | nil =>
    rw [Progress.layAll, walkFrom, Shape.eventsAll]
    exact .nil
  | cons s ss =>
    rw [Progress.layAll, walkFrom, Shape.eventsAll]
    exact List.rel_append (tells_walkOf n slot p s) (tells_walkFrom n (slot + 1) (p.lay s).2 ss)

end

end Node

end Tree

/-! ## Numbers -/

namespace Progress

theorem trivia_nodes (p : Progress) (ts : List Trivia) : (p.trivia ts).2.nodes = p.nodes := by
  induction ts generalizing p with
  | nil => rfl
  | cons t ts ih => exact ih (p.leaf t.kind.kind none t.text).2

theorem cluster_nodes (p : Progress) (kind : Kind) (field : Option Field) (leading : List Trivia)
    (text : Text) (trailing : List Trivia) :
    (p.cluster kind field leading text trailing).2.nodes = p.nodes := by
  have hlead := p.trivia_nodes leading
  rw [cluster]
  exact (trivia_nodes _ trailing).trans hlead

mutual

theorem lay_nodes (p : Progress) (s : Shape) : (p.lay s).2.nodes = p.nodes + s.nodeCount := by
  cases s with
  | token kind field leading text trailing =>
    rw [lay, Shape.nodeCount]
    exact p.cluster_nodes kind field leading text trailing
  | node kind field children =>
    rw [lay, Shape.nodeCount, layAll_nodes _ children, Nat.add_assoc]

theorem layAll_nodes (p : Progress) (ss : List Shape) :
    (p.layAll ss).2.nodes = p.nodes + Shape.nodeCountAll ss := by
  cases ss with
  | nil => rw [layAll, Shape.nodeCountAll, Nat.add_zero]
  | cons s ss =>
    rw [layAll, Shape.nodeCountAll, layAll_nodes _ ss, lay_nodes p s]
    omega

end

end Progress

namespace Tree

theorem Step.numbers_append (ss ts : List Step) :
    numbers (ss ++ ts) = numbers ss ++ numbers ts := by
  rw [numbers, List.filterMap_append, List.map_append, numbers, numbers]

namespace Node

mutual

theorem numbers_walkOf (n : Node) (slot : Nat) (p : Progress) (s : Shape) :
    Step.numbers (n.walkOf slot (p.lay s).1) = List.range' p.nodes s.nodeCount := by
  cases s with
  | token kind field leading text trailing =>
    rw [Progress.lay, walkOf, Shape.nodeCount]
    rfl
  | node kind field children =>
    have hbelow (c : Node) := numbers_walkFrom c 0 { p with nodes := p.nodes + 1 } children
    rw [Progress.lay, walkOf, Shape.nodeCount, Nat.add_comm 1 (Shape.nodeCountAll children),
      List.range'_succ]
    change p.nodes :: Step.numbers (_ ++ [Step.leave _]) = _
    rw [Step.numbers_append, hbelow]
    exact congrArg (p.nodes :: ·) (List.append_nil _)

/-- **The nodes of laid out shapes are numbered as they are entered.** -/
theorem numbers_walkFrom (n : Node) (slot : Nat) (p : Progress) (ss : List Shape) :
    Step.numbers (n.walkFrom slot (p.layAll ss).1) =
      List.range' p.nodes (Shape.nodeCountAll ss) := by
  cases ss with
  | nil =>
    rw [Progress.layAll, walkFrom, Shape.nodeCountAll]
    rfl
  | cons s ss =>
    rw [Progress.layAll, walkFrom, Shape.nodeCountAll, Step.numbers_append,
      numbers_walkOf n slot p s, numbers_walkFrom n (slot + 1) (p.lay s).2 ss, Progress.lay_nodes,
      List.range'_append_1]

end

end Node

/-! ## Every stream -/

/-- A walk from the root, taken step by step, tells the events again, and enters the nodes in the
order of their numbers. -/
def Replays (t : Tree) (events : List Event) : Prop :=
  ∃ steps, (Walk.start t.root).Gives steps ∧ List.Forall₂ Step.Tells steps events ∧
    Step.numbers steps = List.range t.nodeCount

/-- The tree of a root replays the stream of that root. -/
theorem replays_ofStem (text : Text) (root : Stem) :
    (ofStem text root).Replays root.shape.events := by
  refine ⟨_, Walk.gives_walk _, ?_, ?_⟩
  · rw [Stem.shape, Shape.events]
    have hbelow := (ofStem text root).root.tells_walkFrom 0 { nodes := 1 } root.children.reverse
    exact .cons ⟨rfl, rfl⟩ (List.rel_append hbelow (.cons trivial .nil))
  · have hbelow := (ofStem text root).root.numbers_walkFrom 0 { nodes := 1 } root.children.reverse
    have hcount : (ofStem text root).nodeCount = Shape.nodeCountAll root.children.reverse + 1 := by
      rw [ofStem]
      exact (Progress.layAll_nodes _ _).trans (Nat.add_comm _ _)
    rw [hcount, List.range_eq_range', List.range'_succ]
    change 0 :: Step.numbers (_ ++ [Step.leave _]) = _
    rw [Step.numbers_append]
    exact congrArg (0 :: ·) ((List.append_nil _).trans hbelow)

end Tree

/-- **The streams that are accepted, and their replay.**  A stream is accepted over a text exactly
if it tells one root with everything inside, and its pieces of text end between characters and make
up the text; any other is refused.  A walk through the tree tells an accepted stream again, event by
event, and the nodes are numbered in the order in which they are entered. -/
theorem ofEvents?_iff_oneRoot (text : Text) (events : List Event) :
    ((∃ tree, Tree.ofEvents? text events = .ok tree) ↔
      Event.OneRoot events ∧ Event.Covers text events) ∧
    ∀ tree, Tree.ofEvents? text events = .ok tree → tree.Replays events := by
  refine ⟨⟨?_, ?_⟩, ?_⟩
  · rintro ⟨tree, htree⟩
    obtain ⟨root, rfl, rfl, -⟩ := Tree.ofEvents?_eq_ok.1 htree
    exact Event.oneRoot_covers_of_stem root
  · rintro ⟨hroot, hcovers⟩
    obtain ⟨root, hevents, hsource⟩ := Event.exists_stem hroot hcovers
    exact ⟨_, Tree.ofEvents?_eq_ok.2 ⟨root, hevents, hsource, rfl⟩⟩
  · intro tree htree
    obtain ⟨root, rfl, -, rfl⟩ := Tree.ofEvents?_eq_ok.1 htree
    exact Tree.replays_ofStem text root

/-- A letter of two bytes, a space behind it, an empty node and another letter. -/
theorem ofEvents?_iff_oneRoot_letters : ∃ tree,
    Tree.ofEvents? ['é', ' ', 'b']
      [.start .sourceFile none, .token .name none [] 2 [⟨.whitespace, 1⟩], .start .error none,
        .finish, .token .name none [] 1 [], .finish] = .ok tree ∧
    tree.Replays
      [.start .sourceFile none, .token .name none [] 2 [⟨.whitespace, 1⟩], .start .error none,
        .finish, .token .name none [] 1 [], .finish] := by
  refine ⟨_, rfl, ?_⟩
  exact (ofEvents?_iff_oneRoot ['é', ' ', 'b'] _).2 _ rfl

end ActionScript
