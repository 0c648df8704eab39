import ActionScript.Proofs.Layout

/-!
# How operators group

An operator between operands belongs to a tier, and so does the node that it makes.  Which tiers the
operands of such a node may have follows from the tier of the node: the table of precedences, read
as a property of trees.

* `Precedence.floor`, `operandSlots`: which tiers may stand in which slot.
* `Grouping`: a node whose children are as they should be.
* `Shape.Grouped`: a shape all of whose nodes are.
* `grouping_of_mem_nodesFrom`: **laid out, such a shape makes a tree all of whose nodes are.**
-/

set_option autoImplicit false

namespace ActionScript

/-! ## Tiers -/

namespace Precedence

/-- The lowest rank in front of an operator.  What is looser has ended before it, and so have the
operators that group from the right: they would have taken it into their own operand. -/
def leftFloor : Precedence → Nat
  | .comma => Precedence.comma.rank
  | .assignment | .ternary => Precedence.logicalOr.rank
  | p => p.rank

/-- The lowest rank behind an operator: above its own, but where it groups from the right, and
behind a comma, all but another comma will do. -/
def rightFloor : Precedence → Nat
  | .comma | .assignment | .ternary => Precedence.assignment.rank
  | p => p.rank + 1

/-- The lowest rank in a slot of a node whose operator is of the tier. -/
def floor (p : Precedence) : Field → Nat
  | .left | .condition => p.leftFloor
  | .right | .consequence | .alternative => p.rightFloor
  | _ => 0

end Precedence

/-- The slots for what an operator in front, an access, a call or an update is applied to. -/
def operandSlots : List (Kind × Field) :=
  [(.unaryExpr, .argument), (.updateExpr, .argument), (.memberExpr, .object),
    (.filterExpr, .object),
   (.descendantExpr, .object), (.subscriptExpr, .object), (.callExpr, .function),
   (.namespaceAccessExpr, .nameSpace), (.genericType, .base)]

/-- The kinds of nodes that operators between operands make. -/
def Kind.isInfix : Kind → Bool
  | .sequenceExpr | .assignExpr | .augmentedAssignExpr | .ternaryExpr | .castExpr
  | .binaryExpr => true
  | _ => false

theorem isInfix_of_mem_operandSlots {kind : Kind} {f : Field} (h : (kind, f) ∈ operandSlots) :
    kind.isInfix = false := by
  have key : ∀ slot ∈ operandSlots, slot.1.isInfix = false := by decide
  exact key _ h

/-! ## Nodes -/

/-- What a child shows to the node around it: its kind, its slot, and the tier of its operator if it
is a node that an operator between operands has made. -/
structure Face where
  kind : Kind
  field : Option Field
  tier? : Option Precedence
  deriving DecidableEq, Repr

namespace Face

/-- The tier of the operator of a node, if that stands between operands. -/
def tierOf? (kind : Kind) (children : List Face) : Option Precedence :=
  match kind with
  | .sequenceExpr => some .comma
  | .assignExpr | .augmentedAssignExpr => some .assignment
  | .ternaryExpr => some .ternary
  | .castExpr => some .relational
  | .binaryExpr =>
    (children.find? fun c => c.field == some .operator).bind fun c => c.kind.precedence?
  | _ => none

/-- The child is no node of a tier below the rank. -/
def AtLeast (c : Face) (rank : Nat) : Prop := ∀ p, c.tier? = some p → rank ≤ p.rank

end Face

/-- The children of a node are as the precedence of operators has it. -/
structure Grouping (kind : Kind) (children : List Face) : Prop where
  -- a node that an operator between operands makes holds one of the table
  tiered : kind.isInfix = true → (Face.tierOf? kind children).isSome = true
  -- commas, assignments and the conditional make nodes of their own kinds
  binary : ∀ p, kind = .binaryExpr → Face.tierOf? kind children = some p →
    Precedence.logicalOr.rank ≤ p.rank
  operands : ∀ p, Face.tierOf? kind children = some p →
    ∀ c ∈ children, ∀ f, c.field = some f → c.AtLeast (p.floor f)
  whole : ∀ c ∈ children, ∀ f, c.field = some f → (kind, f) ∈ operandSlots → c.tier? = none

theorem Kind.rank_precedence?_lt {k : Kind} {p : Precedence} (h : k.precedence? = some p) :
    p.rank < Precedence.unary.rank := by
  unfold Kind.precedence? at h
  split at h <;> first | cases h; decide | skip
  split at h
  · cases h
    decide
  · cases h

namespace Face

theorem tierOf?_of_not_isInfix {kind : Kind} (h : kind.isInfix = false) (children : List Face) :
    tierOf? kind children = none := by
  unfold tierOf?
  split <;> first | rfl | cases h

/-- No operator between operands binds as tightly as one in front of an operand. -/
theorem rank_tierOf?_lt {kind : Kind} {children : List Face} {p : Precedence}
    (h : tierOf? kind children = some p) : p.rank < Precedence.unary.rank := by
  unfold tierOf? at h
  split at h
  · cases h; decide
  · cases h; decide
  · cases h; decide
  · cases h; decide
  · cases h; decide
  · obtain ⟨c, -, hc⟩ := Option.bind_eq_some_iff.1 h
    exact Kind.rank_precedence?_lt hc
  · cases h

theorem AtLeast.mono {c : Face} {m n : Nat} (h : c.AtLeast n) (hle : m ≤ n) : c.AtLeast m :=
  fun p hp => Nat.le_trans hle (h p hp)

theorem atLeast_zero (c : Face) : c.AtLeast 0 := fun _ _ => Nat.zero_le _

theorem atLeast_of_none {c : Face} (h : c.tier? = none) (n : Nat) : c.AtLeast n := by
  intro p hp
  rw [h] at hp
  cases hp

end Face

/-! ## Shapes -/

namespace Shape

mutual

/-- What a shape shows to the node around it. -/
def face : Shape → Face
  | .token kind field .. => ⟨kind, field, none⟩
  | .node kind field children => ⟨kind, field, Face.tierOf? kind (faces children)⟩

/-- What several shapes in a row show. -/
def faces : List Shape → List Face
  | [] => []
  | s :: ss => s.face :: faces ss

end

mutual

/-- All nodes of a shape are grouped as they should be. -/
def Grouped : Shape → Prop
  | .token .. => True
  | .node kind _ children => Grouping kind (faces children) ∧ GroupedAll children

/-- All nodes of several shapes are. -/
def GroupedAll : List Shape → Prop
  | [] => True
  | s :: ss => s.Grouped ∧ GroupedAll ss

end

theorem faces_eq_map (ss : List Shape) : faces ss = ss.map face := by
  induction ss with
  | nil => rw [faces, List.map_nil]
  | cons s ss ih => rw [faces, List.map_cons, ih]

theorem groupedAll_iff {ss : List Shape} : GroupedAll ss ↔ ∀ s ∈ ss, s.Grouped := by
  induction ss with
  | nil => simp [GroupedAll]
  | cons s ss ih => simp [GroupedAll, ih]

@[simp] theorem grouped_token (kind : Kind) (field : Option Field) (leading : List Trivia)
    (text : Text) (trailing : List Trivia) :
    (Shape.token kind field leading text trailing).Grouped := by
  rw [Grouped]
  trivial

@[simp] theorem grouped_node {kind : Kind} {field : Option Field} {children : List Shape} :
    (Shape.node kind field children).Grouped ↔
      Grouping kind (children.map face) ∧ ∀ s ∈ children, s.Grouped := by
  rw [Grouped, faces_eq_map, groupedAll_iff]

/-- A slot changes nothing inside a shape. -/
@[simp] theorem grouped_withField {f : Field} {s : Shape} :
    (s.withField f).Grouped ↔ s.Grouped := by
  cases s <;> simp [withField]

@[simp] theorem face_withField (f : Field) (s : Shape) :
    (s.withField f).face = { s.face with field := some f } := by
  cases s <;> simp [withField, face]

/-- No shape shows a tier that reaches an operator in front of an operand. -/
theorem tier?_eq_none {s : Shape} (h : s.face.AtLeast Precedence.unary.rank) :
    s.face.tier? = none := by
  cases s with
  | token kind field leading text trailing => rw [face]
  | node kind field children =>
    rw [face] at h ⊢
    refine Option.eq_none_iff_forall_ne_some.2 fun p hp => ?_
    exact Nat.lt_irrefl _ (Nat.lt_of_lt_of_le (Face.rank_tierOf?_lt hp) (h p hp))

end Shape

/-! ## Trees -/

mutual

/-- What a child of a tree's node shows to it. -/
def Item.face : Item → Face
  | .token c => ⟨c.leaf.kind, c.leaf.field, none⟩
  | .node info children => ⟨info.kind, info.field, Face.tierOf? info.kind (Item.faces children)⟩

/-- What the children of a tree's node show to it. -/
def Item.faces : List Item → List Face
  | [] => []
  | i :: is => i.face :: Item.faces is

end

mutual

/-- Laying out a shape does not change what it shows. -/
theorem Progress.face_lay (p : Progress) (s : Shape) : (p.lay s).1.face = s.face := by
  cases s with
  | token kind field leading text trailing => simp [lay, Item.face, Shape.face, cluster, leaf]
  | node kind field children =>
    rw [lay, Item.face, Shape.face, Progress.faces_layAll _ children]
    rfl

theorem Progress.faces_layAll (p : Progress) (ss : List Shape) :
    Item.faces (p.layAll ss).1 = Shape.faces ss := by
  cases ss with
  | nil => rw [layAll, Item.faces, Shape.faces]
  | cons s ss =>
    rw [layAll, Item.faces, Shape.faces, Progress.face_lay p s, Progress.faces_layAll _ ss]

end

namespace Tree.Node

mutual

theorem grouping_of_mem_nodesOf {n m : Tree.Node} {slot : Nat} {p : Progress} {s : Shape}
    (h : s.Grouped) (hm : m ∈ n.nodesOf slot (p.lay s).1) :
    Grouping m.kind (Item.faces m.children) := by
  cases s with
  | token kind field leading text trailing =>
    rw [Progress.lay, nodesOf] at hm
    cases hm
  | node kind field children =>
    rw [Progress.lay, nodesOf] at hm
    rw [Shape.Grouped] at h
    rcases List.mem_cons.1 hm with rfl | hm
    · have hfaces := Progress.faces_layAll { p with nodes := p.nodes + 1 } children
      exact hfaces ▸ h.1
    · exact grouping_of_mem_nodesFrom h.2 hm

/-- **Laid out, a grouped shape makes a tree all of whose nodes are grouped.** -/
theorem grouping_of_mem_nodesFrom {n m : Tree.Node} {slot : Nat} {p : Progress} {ss : List Shape}
    (h : Shape.GroupedAll ss) (hm : m ∈ n.nodesFrom slot (p.layAll ss).1) :
    Grouping m.kind (Item.faces m.children) := by
  cases ss with
  | nil =>
    rw [Progress.layAll, nodesFrom] at hm
    cases hm
  | cons s ss =>
    rw [Progress.layAll, nodesFrom, List.mem_append] at hm
    rw [Shape.GroupedAll] at h
    rcases hm with hm | hm
    · exact grouping_of_mem_nodesOf h.1 hm
    · exact grouping_of_mem_nodesFrom h.2 hm

end

end Tree.Node

end ActionScript
