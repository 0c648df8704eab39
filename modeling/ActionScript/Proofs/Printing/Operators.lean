import ActionScript.Proofs.Printing.Operands

/-!
# Operators between operands are read again

An operator takes what stands in front of it as its first operand, reads the others in their slots,
and leaves the rest to the expression around it.

* `Phrase.Readable.operation`: **behind a phrase that is tight enough, an operator goes on with the
  expression.**
* `Phrase.Readable.binary` to `Phrase.Readable.sequence`: one lemma for each form of operation.
-/

set_option autoImplicit false

namespace ActionScript

open ActionScript.Parser ActionScript.Grammar Trivia

/-- An operator between operands is seen as one, behind an operand, and goes on with no chain. -/
theorem infixOperator?_seenAs {k : Kind} {p : Precedence} (hp : k.precedence? = some p)
    {r : Restrictions} (hin : r.noIn = true → k ≠ .inKw) (hseq : r.noSequence = true → k ≠ .comma) :
    infixOperator? r ⟨k.seenAs, k.text, false⟩ = some (k, p) ∧ Mode.operator.hasOperator k = true ∧
      k.seenAs ∉ linkKinds := by
  -- one row of the table for each operator
  have hrows : ∀ k : Kind, k.precedence?.isSome = true → ∀ noIn noSequence : Bool,
      (noIn = true → k ≠ .inKw) → (noSequence = true → k ≠ .comma) →
      infixOperator? ⟨noIn, noSequence⟩ ⟨k.seenAs, k.text, false⟩ = k.precedence?.map (Prod.mk k) ∧
        Mode.operator.hasOperator k = true ∧ k.seenAs ∉ linkKinds := by
    decide +kernel
  have hrow := hrows k (by rw [hp]; rfl) r.noIn r.noSequence hin hseq
  rwa [hp] at hrow

namespace Precedence

theorem rank_le_leftFloor (p : Precedence) : p.rank ≤ p.leftFloor := by
  cases p <;> decide

theorem leftFloor_le_primary (p : Precedence) : p.leftFloor ≤ Precedence.primary.rank := by
  cases p <;> decide

/-- The next tighter tier is the lowest behind an operator that groups from the left. -/
theorem rank_tighter_eq {p : Precedence} (h : Precedence.logicalOr.rank ≤ p.rank)
    (hunary : p.rank < Precedence.unary.rank) : p.tighter.rank = p.rightFloor := by
  revert h hunary
  cases p <;> decide

theorem one_le_rightFloor (p : Precedence) : 1 ≤ p.rightFloor := by
  cases p <;> decide

end Precedence

/-- An operator of a tier that groups from the left takes one more operand. -/
theorem operation_eq {p : Precedence} (h : Precedence.logicalOr.rank ≤ p.rank) (op : Kind)
    (r : Restrictions) : operation op p r = (do
      (if op == .asKw then takeWord .asKw none else takeOperator op)
      callIn .right (.expression p.tighter r.operand)
      return (if op == .asKw then .castExpr else .binaryExpr)) := by
  cases p <;> first
    | rfl
    | exact absurd h (by decide)

theorem fieldBefore_eq {p : Precedence} (h : Precedence.logicalOr.rank ≤ p.rank) :
    fieldBefore p = .left := by
  cases p <;> first
    | rfl
    | exact absurd h (by decide)

variable [Alphabet]

namespace Setting

variable {E : Setting}

/-- An operator that is tight enough is taken. -/
theorem goes_operatorStep {min p : Precedence} {r : Restrictions} {op : Kind} {rest more : Text}
    {made made' : List Shape} (hop : infixOperator? r (rest.glimpse .operator) = some (op, p))
    (hmin : min.rank ≤ p.rank)
    (h : E.Goes (.wrap (fieldBefore p) (operation op p r)) ⟨rest, .operator, made⟩ ()
      ⟨more, .operator, made'⟩) :
    E.Goes (operatorStep min r) ⟨rest, .operator, made⟩ true ⟨more, .operator, made'⟩ := by
  refine (goes_look _ _ _ _).bind ?_
  rw [hop]
  exact .of_neg (Nat.not_lt.2 hmin) (h.bind (goes_pure _ _))

end Setting

namespace Phrase

open Setting Shape

variable {limits : Limits} {m n : Nat} {x y : Phrase} {tier : Precedence} {free : Bool}

/-- **Behind a phrase that is tight enough, an operator goes on with the expression.**  `rest`
stands behind the operator. -/
theorem Readable.operation (hl : limits.Endless) {k : Kind} {p : Precedence}
    (hp : k.precedence? = some p)
    (hx : Readable limits m tier free x) (hfloor : p.leftFloor ≤ tier.rank) (hle : m ≤ n)
    {node : Kind} {field : Option Field} {rest : List Trivia → List Shape} {free' : Bool}
    (hfree : free' = true → k ≠ .inKw ∧ free = true)
    (hsolid : ∀ tail more, Ends tail more → Text.Solid (sourceAll (rest tail) ++ more))
    (hoperation : ∀ depth ≥ n + 1, ∀ r : Restrictions, (r.noIn = true → free' = true) → ∀ tail more,
      Ends tail more → more.Follows p.rank → ∀ made,
      (atDepth limits depth).Goes (operation k p r)
        ⟨(sign k field gap).source ++ (sourceAll (rest tail) ++ more), .operator, made⟩ node
        ⟨more, .operator, (rest tail).reverse ++ sign k field gap :: made⟩) :
    ReadableOn limits n p free' x
      (x.heads node (fieldBefore p) fun tail => sign k field gap :: rest tail) := by
  obtain ⟨-, hoperator, hlinks⟩ := infixOperator?_seenAs hp (r := {}) nofun nofun
  have hsource (tail : List Trivia) (more : Text) :
      sourceAll (sign k field gap :: rest tail) ++ more =
      (sign k field gap).source ++ (sourceAll (rest tail) ++ more) := by
    rw [sourceAll, List.append_assoc]
  have hread {tail : List Trivia} {more : Text} (hends : Ends tail more) :=
    Mode.operator.reads_operator rfl hoperator (settled_of_solid (hsolid tail more hends)) field
  have hothers (tail : List Trivia) (more : Text) (hends : Ends tail more) :
      Text.Solid (sourceAll (sign k field gap :: rest tail) ++ more) := by
    rw [hsource]
    exact Mode.operator.solid_operator hoperator field _
  have hrank := p.rank_le_leftFloor
  refine ⟨Spans.readable ?_ (Kind.rank_precedence?_lt hp), fun hx => hx.heads _ _ hothers⟩
  intro depth hdepth min r hmin hin hseq tail more hends hfollows mode made d hrounds
  have hends' := ends_gap (hothers tail more hends)
  rw [hsource] at hends'
  have hword : r.noIn = true → k ≠ .inKw := fun hr => (hfree (hin hr)).1
  have hcomma : r.noSequence = true → k ≠ .comma := by
    rintro hr rfl
    cases hp
    exact absurd (hseq hr) (by decide)
  have hseen := (infixOperator?_seenAs hp hword hcomma).1
  rw [← (hread hends).glimpse] at hseen
  have hnext : Text.Follows ((sign k field gap).source ++ (sourceAll (rest tail) ++ more))
      tier.rank := by
    refine ⟨?_, fun op q hop => ?_⟩
    · rw [(hread hends).ahead]
      exact hlinks
    · rw [infixOperator?_unrestricted hseen] at hop
      cases hop
      exact hfloor
  have hwrap : (atDepth limits depth).Goes (.wrap (fieldBefore p) (Grammar.operation k p r))
      ⟨(sign k field gap).source ++ (sourceAll (rest tail) ++ more), .operator, x gap :: made⟩ ()
      ⟨more, .operator,
        x.heads node (fieldBefore p) (fun tail => sign k field gap :: rest tail) tail ::
        made⟩ := by
    refine goes_wrap hl ?_
    simpa using hoperation depth hdepth r hin tail more hends hfollows
      [(x gap).withField (fieldBefore p)]
  rw [source_heads_append, hsource]
  exact hx.spans depth (by omega) min r (by omega) (fun hr => (hfree (hin hr)).2)
    (fun hr => by have := hseq hr; omega) gap _ hends' hnext mode made d
    (.more (goes_operatorStep hseen hmin hwrap) hrounds)

/-! ## The forms of operations -/

/-- A phrase with an operator and an operand behind it. -/
def binary (x : Phrase) (op : BinaryOperator) (right : Expr) : Phrase :=
  x.heads op.node .left fun tail => [sign op.kind op.slot gap,
    slot .right (right.looserThan op.tier.rightFloor) right.shape tail]

/-- A phrase as a condition. -/
def conditional (x : Phrase) (consequence alternative : Expr) : Phrase :=
  x.heads .ternaryExpr .condition fun tail => [sign .question none gap,
    slot .consequence (consequence.looserThan Precedence.ternary.rightFloor) consequence.shape gap,
    sign .colon none gap,
    slot .alternative (alternative.looserThan Precedence.ternary.rightFloor) alternative.shape tail]

/-- A phrase that something is assigned to. -/
def assign (x : Phrase) (op : AssignmentOperator) (value : Expr) : Phrase :=
  x.heads op.node .left fun tail => [sign op.kind op.slot gap,
    slot .right (value.looserThan Precedence.assignment.rightFloor) value.shape tail]

/-- A phrase with a comma and an operand behind it. -/
def sequence (x : Phrase) (right : Expr) : Phrase :=
  x.heads .sequenceExpr .left fun tail => [sign .comma none gap,
    slot .right (right.looserThan Precedence.comma.rightFloor) right.shape tail]

variable (hl : limits.Endless)
include hl

/-- The operator between two operands is taken; `as` has no slot. -/
theorem goes_binaryOperator (op : BinaryOperator) {depth : Nat} {rest : Text} (hrest : rest.Solid)
    (made : List Shape) :
    (atDepth limits depth).Goes (if op.kind == .asKw then takeWord .asKw none
      else takeOperator op.kind)
      ⟨(sign op.kind op.slot gap).source ++ rest, .operator, made⟩ ()
      ⟨rest, .operator, sign op.kind op.slot gap :: made⟩ := by
  have hoperator := (infixOperator?_seenAs op.hasTier (r := {}) nofun nofun).2.1
  have hread := Mode.operator.reads_operator rfl hoperator (settled_of_solid hrest) op.slot
  by_cases has : op.kind = .asKw
  · rw [BinaryOperator.slot, if_pos has] at hread ⊢
    rw [has] at hread ⊢
    exact .of_pos rfl (goes_takeWord hl hread .asKw none)
  · rw [BinaryOperator.slot, if_neg has] at hread ⊢
    exact .of_neg (by simpa using has) (goes_takeOperator hl hread made)

theorem Readable.binary {op : BinaryOperator} {right : Expr} {g free' : Bool}
    (hx : Readable limits m tier free x) (hfloor : op.tier.leftFloor ≤ tier.rank) (hle : m ≤ n + 3)
    (hright : Legible limits n right.tier g right.shape)
    (hfree : free' = true → (op.kind ≠ .inKw ∧ free = true) ∧
      (right.looserThan op.tier.rightFloor || g) = true) :
    ReadableOn limits (n + 3) op.tier free' x (x.binary op right) := by
  have htighter := Precedence.rank_tighter_eq op.isBinary (Kind.rank_precedence?_lt op.hasTier)
  have hprimary : op.tier.rightFloor ≤ Precedence.primary.rank := by
    rw [← htighter]
    cases op.tier.tighter <;> decide
  have hnode : (if op.kind == .asKw then Kind.castExpr else .binaryExpr) = op.node := by
    simp [BinaryOperator.node]
  have hsource (tail : List Trivia) (more : Text) :
      sourceAll [slot .right (right.looserThan op.tier.rightFloor) right.shape tail] ++ more =
        (slot .right (right.looserThan op.tier.rightFloor) right.shape tail).source ++ more := by
    simp [sourceAll]
  have hopens := hright.opens_slot hl op.tier.rightFloor .right
  rw [Phrase.binary, ← fieldBefore_eq op.isBinary]
  refine hx.operation hl op.hasTier hfloor hle (fun hf => (hfree hf).1) ?_ ?_
  · intro tail more hends
    rw [hsource]
    exact (hopens tail more hends).solid
  · intro depth hdepth r hin tail more hends hfollows made
    have hslot :=
      hright.goes_slot hl (by omega) op.tier.rightFloor op.tier.tighter r.operand htighter
      op.tier.one_le_rightFloor hprimary (fun hr => (hfree (hin hr)).2) hends
      (hfollows.right htighter _) .right .operator
    rw [hsource, operation_eq op.isBinary, hnode]
    exact (goes_binaryOperator hl op (hopens tail more hends).solid _).bind
      ((hslot _).bind (goes_pure _ _))

theorem Readable.conditional {consequence alternative : Expr} {f g free' : Bool}
    (hx : Readable limits m tier free x) (hfloor : Precedence.ternary.leftFloor ≤ tier.rank)
    (hle : m ≤ n + 3) (hconsequence : Legible limits n consequence.tier f consequence.shape)
    (halternative : Legible limits n alternative.tier g alternative.shape)
    (hfree : free' = true → free = true ∧
      (alternative.looserThan Precedence.ternary.rightFloor || g) = true) :
    ReadableOn limits (n + 3) .ternary free' x (x.conditional consequence alternative) := by
  have hsource (tail : List Trivia) (more : Text) :
      sourceAll [slot .consequence (consequence.looserThan Precedence.ternary.rightFloor)
          consequence.shape gap, sign .colon none gap,
        slot .alternative (alternative.looserThan Precedence.ternary.rightFloor) alternative.shape
          tail] ++ more =
        (slot .consequence (consequence.looserThan Precedence.ternary.rightFloor)
          consequence.shape gap).source ++ ((sign .colon none gap).source ++
            ((slot .alternative (alternative.looserThan Precedence.ternary.rightFloor)
              alternative.shape tail).source ++ more)) := by
    simp [sourceAll]
  have hlast := halternative.opens_slot hl Precedence.ternary.rightFloor .alternative
  have hcolon {tail : List Trivia} {more : Text} (hends : Ends tail more) :=
    Mode.operator.reads_sign .colon rfl (ends_gap (hlast tail more hends).solid) none
  have hbehind (tail : List Trivia) (more : Text) :=
    ends_gap (Mode.operator.solid_sign .colon rfl none gap ((slot .alternative
      (alternative.tier.rank < Precedence.ternary.rightFloor) alternative.shape
        tail).source ++ more))
  have hfirst (tail : List Trivia) (more : Text) :=
    (hconsequence.opens_slot hl Precedence.ternary.rightFloor .consequence gap _
      (hbehind tail more)).solid
  refine hx.operation hl (k := .question) (p := .ternary) rfl hfloor hle
    (fun hf => ⟨by decide, (hfree hf).1⟩) ?_ ?_
  · intro tail more hends
    rw [hsource]
    exact hfirst tail more
  · intro depth hdepth r hin tail more hends hfollows made
    have hquestion := Mode.operator.reads_sign .question rfl (ends_gap (hfirst tail more)) none
    have hdeep : n + 4 ≤ depth := by omega
    have hmiddle := hconsequence.goes_slot hl hdeep Precedence.ternary.rightFloor .assignment
      { noSequence := true } rfl (by decide) (by decide) nofun (hbehind tail more)
      (Text.follows_of_closing _ (by rw [(hcolon hends).ahead]; decide) _ _ _)
        .consequence .operator
    have hend := halternative.goes_slot hl hdeep Precedence.ternary.rightFloor .assignment
      r.operand rfl (by decide) (by decide) (fun hr => (hfree (hin hr)).2) hends
      (hfollows.right rfl _) .alternative .operator
    rw [hsource]
    exact (goes_take hl hquestion none).bind <| (hmiddle _).bind <|
      (goes_expect hl (hcolon hends)).bind <| (hend _).bind (goes_pure _ _)

theorem Readable.assign {op : AssignmentOperator} {value : Expr} {g free' : Bool}
    (hx : Readable limits m .primary free x) (hle : m ≤ n + 3)
    (hvalue : Legible limits n value.tier g value.shape)
    (hfree : free' = true → free = true ∧
      (value.looserThan Precedence.assignment.rightFloor || g) = true) :
    ReadableOn limits (n + 3) .assignment free' x (x.assign op value) := by
  obtain ⟨hp, hsign, hword⟩ : op.kind.precedence? = some .assignment ∧
      Mode.operator.hasSign op.kind = true ∧ op.kind ≠ .inKw :=
    Kind.assignment_facts op.isAssignment
  have hnode : (if op.kind == .eq then Kind.assignExpr else .augmentedAssignExpr) = op.node := by
    simp [AssignmentOperator.node]
  have htaken : (if op.kind == .eq then none else some Field.operator) = op.slot := by
    simp [AssignmentOperator.slot]
  have hsource (tail : List Trivia) (more : Text) :
      sourceAll
        [slot .right (value.looserThan Precedence.assignment.rightFloor) value.shape tail] ++
        more = (slot .right (value.looserThan Precedence.assignment.rightFloor) value.shape
          tail).source ++ more := by
    simp [sourceAll]
  have hopens := hvalue.opens_slot hl Precedence.assignment.rightFloor .right
  refine hx.operation hl hp (by decide) hle (fun hf => ⟨hword, (hfree hf).1⟩) ?_ ?_
  · intro tail more hends
    rw [hsource]
    exact (hopens tail more hends).solid
  · intro depth hdepth r hin tail more hends hfollows made
    have hread := Mode.operator.reads_sign op.kind hsign (ends_gap (hopens tail more hends).solid)
      op.slot
    have hslot :=
      hvalue.goes_slot hl (by omega) Precedence.assignment.rightFloor .assignment r.operand
      rfl (by decide) (by decide) (fun hr => (hfree (hin hr)).2) hends (hfollows.right rfl _) .right
      .operator
    unfold Grammar.operation
    rw [hsource, hnode, htaken]
    exact (goes_take hl hread op.slot).bind ((hslot _).bind (goes_pure _ _))

theorem Readable.sequence {right : Expr} {g free' : Bool} (hx : Readable limits m tier free x)
    (hle : m ≤ n + 3) (hright : Legible limits n right.tier g right.shape)
    (hfree : free' = true → free = true ∧
      (right.looserThan Precedence.comma.rightFloor || g) = true) :
    ReadableOn limits (n + 3) .comma free' x (x.sequence right) := by
  have hsource (tail : List Trivia) (more : Text) :
      sourceAll
        [slot .right (right.looserThan Precedence.comma.rightFloor) right.shape tail] ++ more =
        (slot .right (right.looserThan Precedence.comma.rightFloor) right.shape tail).source ++
          more := by
    simp [sourceAll]
  have hopens := hright.opens_slot hl Precedence.comma.rightFloor .right
  refine hx.operation hl (k := .comma) (p := .comma) rfl (Nat.zero_le _) hle
    (fun hf => ⟨by decide, (hfree hf).1⟩) ?_ ?_
  · intro tail more hends
    rw [hsource]
    exact (hopens tail more hends).solid
  · intro depth hdepth r hin tail more hends hfollows made
    have hread := Mode.operator.reads_sign .comma rfl (ends_gap (hopens tail more hends).solid) none
    have hslot :=
      hright.goes_slot hl (by omega) Precedence.comma.rightFloor .assignment r.operand rfl
      (by decide) (by decide) (fun hr => (hfree (hin hr)).2) hends (hfollows.right rfl _) .right
      .operator
    rw [hsource]
    exact (goes_take hl hread none).bind ((hslot _).bind (goes_pure _ _))

end Phrase

end ActionScript
