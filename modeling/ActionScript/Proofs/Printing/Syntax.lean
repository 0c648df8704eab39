import ActionScript.Proofs.Grouping
import ActionScript.Token.Code

/-!
# Expressions and how they are printed

Expressions as they are meant, without parentheses, blanks or positions.  They are printed with
single spaces between tokens, and with parentheses where the table of precedences asks for them:
around an operand that is looser than its slot allows.

* `Expr.tokens`, `Expr.print`: the text of an expression.
* `Expr.shape`: the shape that it stands for, with those parentheses.
* `Expr.source_shape`: **the shape has the printed text as its source**.
-/

set_option autoImplicit false

namespace ActionScript

/-! ## Words, numbers and operators -/

/-- A word that is free to be a name: it is no keyword, and no number. -/
structure Name [Alphabet] where
  text : Text
  isWord : ∃ c cs, text = c :: cs ∧ isIdentStart c = true ∧ cs.all isIdentContinue = true
  isFree : Kind.ofWord? text = none ∧ text ≠ Code.nanWord ∧ text ≠ Code.infinityWord

/-- A decimal integer. -/
structure Numeral where
  text : Text
  nonempty : text ≠ []
  isDecimal : text.all Char.isDigit = true

/-- An operator in front of an operand. -/
structure LeadingOperator where
  kind : Kind
  isLeading : (kind.isUnaryOperator || kind.isUpdateOperator) = true

/-- `++` or `--`. -/
structure UpdateOperator where
  kind : Kind
  isUpdate : kind.isUpdateOperator = true

/-- An operator between operands, but for commas, assignments and the conditional. -/
structure BinaryOperator where
  kind : Kind
  tier : Precedence
  hasTier : kind.precedence? = some tier
  isBinary : Precedence.logicalOr.rank ≤ tier.rank

/-- `=` or a compound of it. -/
structure AssignmentOperator where
  kind : Kind
  isAssignment : kind.isAssignment = true

/-! ## Expressions -/

mutual

/-- An expression. -/
inductive Expr [Alphabet] where
  | reference (target : Reference)
  | number (n : Numeral)
  | array (elements : List Expr)
  | object (properties : List Property)
  | call (function : Expr) (arguments : List Expr)
  | leading (op : LeadingOperator) (argument : Expr)
  | trailing (argument : Expr) (op : UpdateOperator)
  | binary (op : BinaryOperator) (left right : Expr)
  | conditional (condition consequence alternative : Expr)
  | assign (op : AssignmentOperator) (target : Reference) (value : Expr)
  | sequence (left right : Expr)

/-- What can be assigned to. -/
inductive Reference [Alphabet] where
  | name (n : Name)
  | member (base : Expr) (property : Name)
  | subscript (base index : Expr)

/-- `key: value` in an object. -/
inductive Property [Alphabet] where
  | mk (key : Name) (value : Expr)

end

namespace Expr

variable [Alphabet]

/-- How tightly the outermost operator of an expression binds. -/
def tier : Expr → Precedence
  | reference _ | number _ | array _ | object _ | call .. => .primary
  | leading .. => .unary
  | trailing .. => .trailing
  | binary op .. => op.tier
  | conditional .. => .ternary
  | assign .. => .assignment
  | sequence .. => .comma

/-- Is the expression looser than a slot allows? -/
def looserThan (e : Expr) (floor : Nat) : Bool := e.tier.rank < floor

mutual

/-- How deeply an expression is nested. -/
def height : Expr → Nat
  | reference target => heightOfReference target
  | number _ => 1
  | array elements => heightAll elements + 1
  | object properties => heightOfProperties properties + 1
  | call function arguments => max function.height (heightAll arguments) + 1
  | leading _ argument => argument.height + 1
  | trailing argument _ => argument.height + 1
  | binary _ left right => max left.height right.height + 1
  | conditional condition consequence alternative =>
    max condition.height (max consequence.height alternative.height) + 1
  | assign _ target value => max (heightOfReference target) value.height + 1
  | sequence left right => max left.height right.height + 1

/-- How deeply a reference is nested. -/
def heightOfReference : Reference → Nat
  | .name _ => 1
  | .member base _ => base.height + 1
  | .subscript base index => max base.height index.height + 1

/-- How deeply several expressions are nested. -/
def heightAll : List Expr → Nat
  | [] => 0
  | e :: es => max e.height (heightAll es)

/-- How deeply several properties are nested. -/
def heightOfProperties : List Property → Nat
  | [] => 0
  | .mk _ value :: properties => max value.height (heightOfProperties properties)

end

end Expr

/-! ## Printing -/

/-- The text of a sign or a keyword. -/
def Kind.text (k : Kind) : Text := (k.spelling.getD "").toList

/-- Puts parentheses around tokens, if need be. -/
def parenthesize (need : Bool) (tokens : List Text) : List Text :=
  if need then Kind.lParen.text :: tokens ++ [Kind.rParen.text] else tokens

/-- Puts commas between runs of tokens. -/
def separateRuns (runs : List (List Text)) : List Text := [Kind.comma.text].intercalate runs

namespace Expr

variable [Alphabet]

mutual

/-- The tokens of an expression. -/
def tokens : Expr → List Text
  | reference target => tokensOfReference target
  | number n => [n.text]
  | array elements => Kind.lBrack.text :: separateRuns (tokensAll elements) ++ [Kind.rBrack.text]
  | object properties =>
    Kind.lCurly.text :: separateRuns (tokensOfProperties properties) ++ [Kind.rCurly.text]
  | call function arguments =>
    parenthesize (function.looserThan Precedence.primary.rank) function.tokens ++
      Kind.lParen.text :: separateRuns (tokensAll arguments) ++ [Kind.rParen.text]
  | leading op argument =>
    op.kind.text :: parenthesize (argument.looserThan Precedence.unary.rank) argument.tokens
  | trailing argument op =>
    parenthesize (argument.looserThan Precedence.primary.rank) argument.tokens ++ [op.kind.text]
  | binary op left right =>
    parenthesize (left.looserThan op.tier.leftFloor) left.tokens ++
      op.kind.text :: parenthesize (right.looserThan op.tier.rightFloor) right.tokens
  | conditional condition consequence alternative =>
    parenthesize (condition.looserThan Precedence.ternary.leftFloor) condition.tokens ++
      Kind.question.text ::
        parenthesize (consequence.looserThan Precedence.ternary.rightFloor) consequence.tokens ++
      Kind.colon.text ::
        parenthesize (alternative.looserThan Precedence.ternary.rightFloor) alternative.tokens
  | assign op target value =>
    tokensOfReference target ++
      op.kind.text :: parenthesize (value.looserThan Precedence.assignment.rightFloor) value.tokens
  | sequence left right =>
    left.tokens ++
      Kind.comma.text :: parenthesize (right.looserThan Precedence.comma.rightFloor) right.tokens

/-- The tokens of a reference. -/
def tokensOfReference : Reference → List Text
  | .name n => [n.text]
  | .member base property =>
    parenthesize (base.looserThan Precedence.primary.rank) base.tokens ++
      [Kind.dot.text, property.text]
  | .subscript base index =>
    parenthesize (base.looserThan Precedence.primary.rank) base.tokens ++
      Kind.lBrack.text :: index.tokens ++ [Kind.rBrack.text]

/-- The tokens of each of several expressions. -/
def tokensAll : List Expr → List (List Text)
  | [] => []
  | e :: es =>
    parenthesize (e.looserThan Precedence.assignment.rank) e.tokens :: tokensAll es

/-- The tokens of each of several properties. -/
def tokensOfProperties : List Property → List (List Text)
  | [] => []
  | .mk key value :: properties =>
    (key.text :: Kind.colon.text ::
      parenthesize (value.looserThan Precedence.assignment.rank) value.tokens) ::
      tokensOfProperties properties

end

/-- The text of an expression, with single spaces between its tokens. -/
def print (e : Expr) : Text := [' '].intercalate e.tokens

mutual

/-- Does `in` stand outside of all parentheses of a printed expression? -/
def bareIn : Expr → Bool
  | reference target => bareInReference target
  | number _ => false
  | array elements => bareInAny elements
  | object properties => bareInProperties properties
  | call function _ => !function.looserThan Precedence.primary.rank && function.bareIn
  | leading _ argument => !argument.looserThan Precedence.unary.rank && argument.bareIn
  | trailing argument _ => !argument.looserThan Precedence.primary.rank && argument.bareIn
  | binary op left right =>
    op.kind == .inKw || (!left.looserThan op.tier.leftFloor && left.bareIn) ||
      (!right.looserThan op.tier.rightFloor && right.bareIn)
  | conditional condition consequence alternative =>
    (!condition.looserThan Precedence.ternary.leftFloor && condition.bareIn) ||
      (!consequence.looserThan Precedence.ternary.rightFloor && consequence.bareIn) ||
      (!alternative.looserThan Precedence.ternary.rightFloor && alternative.bareIn)
  | assign _ target value =>
    bareInReference target || (!value.looserThan Precedence.assignment.rightFloor && value.bareIn)
  | sequence left right =>
    left.bareIn || (!right.looserThan Precedence.comma.rightFloor && right.bareIn)

/-- The same for a reference. -/
def bareInReference : Reference → Bool
  | .name _ => false
  | .member base _ => !base.looserThan Precedence.primary.rank && base.bareIn
  | .subscript base index =>
    (!base.looserThan Precedence.primary.rank && base.bareIn) || index.bareIn

/-- The same for several expressions. -/
def bareInAny : List Expr → Bool
  | [] => false
  | e :: es => (!e.looserThan Precedence.assignment.rank && e.bareIn) || bareInAny es

/-- The same for several properties. -/
def bareInProperties : List Property → Bool
  | [] => false
  | .mk _ value :: properties =>
    (!value.looserThan Precedence.assignment.rank && value.bareIn) || bareInProperties properties

end

end Expr

/-! ## The shapes that are meant -/

/-- A shape that is open for what stands behind its last token. -/
abbrev Phrase := List Trivia → Shape

/-- The space behind a token. -/
def Trivia.gap : List Trivia := [⟨.whitespace, [' ']⟩]

namespace Shape

/-- A sign or a keyword and what stands behind it. -/
def sign (k : Kind) (field : Option Field) (tail : List Trivia) : Shape :=
  .token k field [] k.text tail

/-- A word, as a node of its own. -/
def ident [Alphabet] (n : Name) (tail : List Trivia) : Shape :=
  .node .ident none [.token .name none [] n.text tail]

/-- A phrase in parentheses; `inner` stands behind the opening one and behind the phrase. -/
def parens (inner : List Trivia) (x : Phrase) : Phrase := fun tail =>
  .node .parenExpr none
    [sign .lParen none inner, (x inner).withField .expression, sign .rParen none tail]

/-- A phrase in parentheses, if need be. -/
def bracket (need : Bool) (x : Phrase) : Phrase := if need then parens Trivia.gap x else x

/-- A phrase in a slot, in parentheses if need be. -/
def slot (field : Field) (need : Bool) (x : Phrase) (tail : List Trivia) : Shape :=
  (bracket need x tail).withField field

/-- Puts commas between shapes. -/
def separate (shapes : List Shape) : List Shape := shapes.intersperse (sign .comma none Trivia.gap)

/-- A list in brackets. -/
def list (kind opening closing : Kind) (items : List Shape) : Phrase := fun tail =>
  .node kind none
    (sign opening none Trivia.gap :: separate items ++ [sign closing none tail])

end Shape

/-- The node that an operator in front makes. -/
def LeadingOperator.node (op : LeadingOperator) : Kind :=
  if op.kind.isUpdateOperator then .updateExpr else .unaryExpr

/-- The node that an operator between operands makes. -/
def BinaryOperator.node (op : BinaryOperator) : Kind :=
  if op.kind = .asKw then .castExpr else .binaryExpr

/-- The slot of an operator between operands; `as` has none. -/
def BinaryOperator.slot (op : BinaryOperator) : Option Field :=
  if op.kind = .asKw then none else some .operator

/-- The node that an assignment makes. -/
def AssignmentOperator.node (op : AssignmentOperator) : Kind :=
  if op.kind = .eq then .assignExpr else .augmentedAssignExpr

/-- The slot of the operator of an assignment; `=` has none. -/
def AssignmentOperator.slot (op : AssignmentOperator) : Option Field :=
  if op.kind = .eq then none else some .operator

namespace Expr

open Shape Trivia

variable [Alphabet]

mutual

/-- The shape of an expression, with `tail` behind its last token. -/
def shape : Expr → Phrase
  | reference target, tail => shapeOfReference target tail
  | number n, tail => .node .numberLiteral none [.token .number none [] n.text tail]
  | array elements, tail =>
    list .arrayLiteral .lBrack .rBrack (shapesAll .element elements) tail
  | object properties, tail =>
    list .objectLiteral .lCurly .rCurly (shapesOfProperties properties) tail
  | call function arguments, tail =>
    .node .callExpr none
      [slot .function (function.looserThan Precedence.primary.rank) function.shape gap,
       (list .argList .lParen .rParen (shapesAll .argument arguments) tail).withField .arguments]
  | leading op argument, tail =>
    .node op.node none
      [sign op.kind (some .operator) gap,
       slot .argument (argument.looserThan Precedence.unary.rank) argument.shape tail]
  | trailing argument op, tail =>
    .node .updateExpr none
      [slot .argument (argument.looserThan Precedence.primary.rank) argument.shape gap,
       sign op.kind (some .operator) tail]
  | binary op left right, tail =>
    .node op.node none
      [slot .left (left.looserThan op.tier.leftFloor) left.shape gap,
       sign op.kind op.slot gap,
       slot .right (right.looserThan op.tier.rightFloor) right.shape tail]
  | conditional condition consequence alternative, tail =>
    .node .ternaryExpr none
      [slot .condition (condition.looserThan Precedence.ternary.leftFloor) condition.shape gap,
       sign .question none gap,
       slot .consequence (consequence.looserThan Precedence.ternary.rightFloor)
         consequence.shape gap,
       sign .colon none gap,
       slot .alternative (alternative.looserThan Precedence.ternary.rightFloor)
         alternative.shape tail]
  | assign op target value, tail =>
    .node op.node none
      [(shapeOfReference target gap).withField .left,
       sign op.kind op.slot gap,
       slot .right (value.looserThan Precedence.assignment.rightFloor) value.shape tail]
  | sequence left right, tail =>
    .node .sequenceExpr none
      [(left.shape gap).withField .left,
       sign .comma none gap,
       slot .right (right.looserThan Precedence.comma.rightFloor) right.shape tail]

/-- The shape of a reference. -/
def shapeOfReference : Reference → Phrase
  | .name n, tail => ident n tail
  | .member base property, tail =>
    .node .memberExpr none
      [slot .object (base.looserThan Precedence.primary.rank) base.shape gap,
       sign .dot none gap,
       (ident property tail).withField .property]
  | .subscript base index, tail =>
    .node .subscriptExpr none
      [slot .object (base.looserThan Precedence.primary.rank) base.shape gap,
       sign .lBrack none gap,
       (index.shape gap).withField .index,
       sign .rBrack none tail]

/-- The shapes of several expressions in slots of one kind. -/
def shapesAll (field : Field) : List Expr → List Shape
  | [] => []
  | e :: es =>
    slot field (e.looserThan Precedence.assignment.rank) e.shape gap :: shapesAll field es

/-- The shapes of several properties. -/
def shapesOfProperties : List Property → List Shape
  | [] => []
  | .mk key value :: properties =>
    .node .pair none
      [(ident key gap).withField .key,
       sign .colon none gap,
       slot .value (value.looserThan Precedence.assignment.rank) value.shape gap] ::
      shapesOfProperties properties

end

end Expr

/-! ## The source of a shape -/

/-- Tokens with single spaces in between, and `tail` behind the last one. -/
def spaced : List Text → Text → Text
  | [], _ => []
  | [t], tail => t ++ tail
  | t :: u :: ts, tail => t ++ ' ' :: spaced (u :: ts) tail

theorem spaced_cons (t : Text) {ts : List Text} (h : ts ≠ []) (tail : Text) :
    spaced (t :: ts) tail = t ++ ' ' :: spaced ts tail := by
  cases ts with
  | nil => exact absurd rfl h
  | cons u ts => rfl

theorem spaced_append (ts : List Text) {us : List Text} (h : us ≠ []) (tail : Text) :
    spaced (ts ++ us) tail = spaced ts [' '] ++ spaced us tail := by
  induction ts with
  | nil => rfl
  | cons t ts ih =>
    cases ts with
    | nil =>
      rw [List.cons_append, List.nil_append, spaced_cons t h]
      simp [spaced]
    | cons u ts =>
      have hne : u :: ts ++ us ≠ [] := by simp
      rw [List.cons_append, spaced_cons t hne, ih, spaced_cons t (List.cons_ne_nil u ts)]
      simp

theorem spaced_nil (ts : List Text) : spaced ts [] = [' '].intercalate ts := by
  induction ts with
  | nil => rfl
  | cons t ts ih =>
    cases ts with
    | nil => simp [spaced]
    | cons u ts =>
      rw [spaced_cons t (List.cons_ne_nil u ts), ih]
      simp [List.intercalate_cons_cons]

theorem spaced_eq_append {ts : List Text} (h : ts ≠ []) (tail : Text) :
    spaced ts tail = spaced ts [] ++ tail := by
  induction ts with
  | nil => exact absurd rfl h
  | cons t ts ih =>
    cases ts with
    | nil => simp [spaced]
    | cons u ts =>
      rw [spaced_cons t (List.cons_ne_nil u ts), spaced_cons t (List.cons_ne_nil u ts),
        ih (List.cons_ne_nil u ts)]
      simp

@[simp] theorem spaced_singleton (t tail : Text) : spaced [t] tail = t ++ tail := rfl

@[simp] theorem parenthesize_eq_nil {need : Bool} {ts : List Text} :
    parenthesize need ts = [] ↔ need = false ∧ ts = [] := by
  cases need <;> simp [parenthesize]

namespace Shape

@[simp] theorem source_withField (f : Field) (s : Shape) : (s.withField f).source = s.source := by
  cases s <;> simp [withField, source]

theorem source_sign (k : Kind) (field : Option Field) (tail : List Trivia) :
    (sign k field tail).source = k.text ++ Trivia.flatten tail := by
  simp [sign, source, Trivia.flatten]

theorem source_ident [Alphabet] (n : Name) (tail : List Trivia) :
    (ident n tail).source = n.text ++ Trivia.flatten tail := by
  simp [ident, source, sourceAll, Trivia.flatten]

@[simp] theorem flatten_nil : Trivia.flatten [] = [] := rfl

theorem flatten_gap : Trivia.flatten Trivia.gap = [' '] := rfl

theorem source_parens (inner : List Trivia) (x : Phrase) (tail : List Trivia) :
    (parens inner x tail).source = Kind.lParen.text ++ Trivia.flatten inner ++
      (x inner).source ++ Kind.rParen.text ++ Trivia.flatten tail := by
  simp [parens, source, sourceAll, source_sign]

theorem source_list (kind opening closing : Kind) (items : List Shape) (tail : List Trivia) :
    (list kind opening closing items tail).source = opening.text ++ ' ' ::
      (sourceAll (separate items) ++ (closing.text ++ Trivia.flatten tail)) := by
  simp [list, source, sourceAll, sourceAll_append, source_sign, flatten_gap]

/-- A slot has the tokens of what stands in it as its source, in parentheses if need be. -/
theorem source_slot {field : Field} {need : Bool} {x : Phrase} {ts : List Text}
    (h : ∀ tail, (x tail).source = spaced ts (Trivia.flatten tail)) (tail : List Trivia) :
    (slot field need x tail).source = spaced (parenthesize need ts) (Trivia.flatten tail) := by
  rw [slot, source_withField, bracket, parenthesize]
  split
  · rw [source_parens, h, flatten_gap, List.cons_append, spaced_cons _ (by simp),
      spaced_append ts (List.cons_ne_nil _ _)]
    simp [spaced]
  · exact h tail

/-- Shapes with commas in between have their tokens with commas in between as their source. -/
theorem source_separate {ss : List Shape} {runs : List (List Text)}
    (h : List.Forall₂ (fun s ts => ts ≠ [] ∧ s.source = spaced ts [' ']) ss runs) :
    sourceAll (separate ss) = spaced (separateRuns runs) [' '] := by
  induction h with
  | nil => rfl
  | @cons s ts ss runs h hrest ih =>
    obtain ⟨hne, hsource⟩ := h
    cases hrest with
    | nil =>
      simp [separate, separateRuns, sourceAll, hsource]
    | @cons s' ts' ss runs h' hrest =>
      have hinner : separateRuns (ts' :: runs) ≠ [] := by
        cases runs with
        | nil => simpa [separateRuns] using h'.1
        | cons _ _ => simp [separateRuns, List.intercalate_cons_cons, h'.1]
      have hruns : separateRuns (ts :: ts' :: runs) =
          ts ++ Kind.comma.text :: separateRuns (ts' :: runs) := by
        simp [separateRuns, List.intercalate_cons_cons]
      have hshapes : separate (s :: s' :: ss) =
          s :: sign .comma none Trivia.gap :: separate (s' :: ss) := rfl
      rw [hshapes, hruns, sourceAll, sourceAll, ih, hsource, source_sign, flatten_gap,
        spaced_append ts (List.cons_ne_nil _ _), spaced_cons _ hinner]
      simp

end Shape

namespace Expr

open Shape Trivia

variable [Alphabet]

@[simp] theorem tokensOfReference_ne_nil (r : Reference) : tokensOfReference r ≠ [] := by
  cases r <;> simp [tokensOfReference]

@[simp] theorem tokens_ne_nil (e : Expr) : e.tokens ≠ [] := by
  cases e <;> simp [tokens]

mutual

/-- **The shape of an expression has the printed text as its source.** -/
theorem source_shape (e : Expr) (tail : List Trivia) :
    (e.shape tail).source = spaced e.tokens (flatten tail) := by
  cases e with
  | reference target =>
    rw [shape, tokens]
    exact source_shapeOfReference target tail
  | number n => simp [shape, tokens, source, sourceAll, flatten]
  | array elements =>
    simp [shape, tokens, source_list, spaced_cons, spaced_append,
      source_separate (forall₂_shapesAll .element elements)]
  | object properties =>
    simp [shape, tokens, source_list, spaced_cons, spaced_append,
      source_separate (forall₂_shapesOfProperties properties)]
  | call function arguments =>
    simp [shape, tokens, source, sourceAll, source_list, flatten_gap, spaced_cons, spaced_append,
      source_slot function.source_shape, source_separate (forall₂_shapesAll .argument arguments)]
  | leading op argument =>
    simp [shape, tokens, source, sourceAll, source_slot argument.source_shape, source_sign,
      flatten_gap, spaced_cons]
  | trailing argument op =>
    simp [shape, tokens, source, sourceAll, source_slot argument.source_shape, source_sign,
      flatten_gap, spaced_append]
  | binary op left right =>
    simp [shape, tokens, source, sourceAll, source_slot left.source_shape,
      source_slot right.source_shape, source_sign, flatten_gap, spaced_cons, spaced_append]
  | conditional condition consequence alternative =>
    simp [shape, tokens, source, sourceAll, source_slot condition.source_shape,
      source_slot consequence.source_shape, source_slot alternative.source_shape, source_sign,
      flatten_gap, spaced_cons, spaced_append]
  | assign op target value =>
    simp [shape, tokens, source, sourceAll, source_shapeOfReference target,
      source_slot value.source_shape, source_sign, flatten_gap, spaced_cons, spaced_append]
  | sequence left right =>
    simp [shape, tokens, source, sourceAll, left.source_shape, source_slot right.source_shape,
      source_sign, flatten_gap, spaced_cons, spaced_append]

theorem source_shapeOfReference (r : Reference) (tail : List Trivia) :
    (shapeOfReference r tail).source = spaced (tokensOfReference r) (flatten tail) := by
  cases r with
  | name n => simp [shapeOfReference, tokensOfReference, source_ident]
  | member base property =>
    simp [shapeOfReference, tokensOfReference, source, sourceAll, source_slot base.source_shape,
      source_sign, source_ident, flatten_gap, spaced_cons, spaced_append]
  | subscript base index =>
    simp [shapeOfReference, tokensOfReference, source, sourceAll, source_slot base.source_shape,
      index.source_shape, source_sign, flatten_gap, spaced_cons, spaced_append]

theorem forall₂_shapesAll (field : Field) (es : List Expr) :
    List.Forall₂ (fun s ts => ts ≠ [] ∧ s.source = spaced ts [' ']) (shapesAll field es)
      (tokensAll es) := by
  cases es with
  | nil => exact .nil
  | cons e es =>
    rw [shapesAll, tokensAll]
    exact .cons ⟨by simp, source_slot e.source_shape gap⟩ (forall₂_shapesAll field es)

theorem forall₂_shapesOfProperties (ps : List Property) :
    List.Forall₂ (fun s ts => ts ≠ [] ∧ s.source = spaced ts [' ']) (shapesOfProperties ps)
      (tokensOfProperties ps) := by
  match ps with
  | [] => exact .nil
  | .mk key value :: properties =>
    rw [shapesOfProperties, tokensOfProperties]
    refine .cons ⟨List.cons_ne_nil _ _, ?_⟩ (forall₂_shapesOfProperties properties)
    simp [source, sourceAll, source_slot value.source_shape, source_sign, source_ident, flatten_gap,
      spaced_cons]

end

theorem source_shape_eq_append (e : Expr) (tail : List Trivia) :
    (e.shape tail).source = e.print ++ flatten tail := by
  rw [source_shape, spaced_eq_append e.tokens_ne_nil, spaced_nil, print]

theorem source_shape_nil (e : Expr) : (e.shape []).source = e.print := by
  rw [source_shape_eq_append, flatten_nil, List.append_nil]

end Expr

end ActionScript
