import ActionScript.Kind.Spelling

/-!
# Precedence

How tightly operators bind, loosest tier first.  All tiers associate to the left but assignment and
the conditional, whose right operands take their own tier in.
-/

set_option autoImplicit false

namespace ActionScript

/-- The tiers of operators. -/
inductive Precedence where
  | comma | assignment | ternary | logicalOr | logicalAnd | bitwiseOr | bitwiseXor | bitwiseAnd
  | equality | relational | shift | additive | multiplicative | unary | trailing | primary
  deriving DecidableEq, Repr

namespace Precedence

/-- The place of a tier; a higher one binds more tightly. -/
def rank (p : Precedence) : Nat := p.ctorIdx

/-- The next tighter tier: the one that the right operand of a left-associative operator needs. -/
def tighter : Precedence → Precedence
  | .comma => .assignment
  | .assignment => .ternary
  | .ternary => .logicalOr
  | .logicalOr => .logicalAnd
  | .logicalAnd => .bitwiseOr
  | .bitwiseOr => .bitwiseXor
  | .bitwiseXor => .bitwiseAnd
  | .bitwiseAnd => .equality
  | .equality => .relational
  | .relational => .shift
  | .shift => .additive
  | .additive => .multiplicative
  | .multiplicative => .unary
  | .unary => .trailing
  | .trailing | .primary => .primary

/-- Do operators of the tier group from the right? -/
def isRightAssociative : Precedence → Bool
  | .assignment | .ternary => true
  | _ => false

end Precedence

namespace Kind

/-- `=` and its compounds. -/
def isAssignment : Kind → Bool
  | .eq | .plusEq | .minusEq | .starEq | .slashEq | .percentEq | .shlEq | .shrEq | .ushrEq
  | .ampEq | .pipeEq | .caretEq | .amp2Eq | .pipe2Eq => true
  | _ => false

/-- The tier of an operator between two operands. -/
def precedence? : Kind → Option Precedence
  | .comma => some .comma
  | .question => some .ternary
  | .pipe2 => some .logicalOr
  | .amp2 => some .logicalAnd
  | .pipe => some .bitwiseOr
  | .caret => some .bitwiseXor
  | .amp => some .bitwiseAnd
  | .eq2 | .eq3 | .neq | .neq2 => some .equality
  | .lt | .gt | .lteq | .gteq | .inKw | .instanceofKw | .isKw | .asKw => some .relational
  | .shl | .shr | .ushr => some .shift
  | .plus | .minus => some .additive
  | .star | .slash | .percent => some .multiplicative
  | k => if k.isAssignment then some .assignment else none

/-- Operators in front of one operand, but for `++` and `--`. -/
def isUnaryOperator : Kind → Bool
  | .bang | .tilde | .plus | .minus | .deleteKw | .typeofKw | .voidKw => true
  | _ => false

/-- `++` and `--`. -/
def isUpdateOperator : Kind → Bool
  | .plus2 | .minus2 => true
  | _ => false

end Kind

end ActionScript
