import ActionScript.Grammar.Signatures

/-!
# Expressions

Operators are grouped by precedence: an expression takes operands and operators as long as the next
operator binds at least as tightly as it is asked to, and asks the right operand for a tighter one.
Below the operators come the leading ones, then chains of accesses and calls, then the operands.
-/

set_option autoImplicit false

namespace ActionScript.Grammar

open ActionScript.Parser

/-! ## Operators -/

/-- The operator between two operands that a token is, and its tier. -/
def infixOperator? (r : Restrictions) (g : Glimpse) : Option (Kind × Precedence) :=
  let kind? : Option Kind :=
    match g.kind with
    | .name =>
      match Kind.ofWord? g.text with
      | some .inKw => if r.noIn then none else some .inKw
      | some .instanceofKw => some .instanceofKw
      | some .isKw => some .isKw
      | some .asKw => some .asKw
      | _ => none
    | .comma => if r.noSequence then none else some .comma
    | kind => some kind
  kind?.bind fun kind => kind.precedence?.map fun p => (kind, p)

/-- Takes an operator into its slot. -/
def takeOperator (op : Kind) : Parser Unit :=
  if op.isKeyword then takeWord op (some .operator) else take (some .operator)

/-- The slot of the operand in front of an operator. -/
def fieldBefore : Precedence → Field
  | .ternary => .condition
  | _ => .left

/-- An operator and what follows it, inside the node that already holds the first operand. -/
def operation (op : Kind) (p : Precedence) (r : Restrictions) : Parser Kind :=
  match p with
  | .comma => do
    take none
    callIn .right (.expression .assignment r.operand)
    return .sequenceExpr
  | .assignment => do
    take (if op == .eq then none else some .operator)
    callIn .right (.expression .assignment r.operand)
    return (if op == .eq then .assignExpr else .augmentedAssignExpr)
  | .ternary => do
    take none
    callIn .consequence (.expression .assignment { noSequence := true })
    expect .colon
    callIn .alternative (.expression .assignment r.operand)
    return .ternaryExpr
  | p => do
    (if op == .asKw then takeWord .asKw none else takeOperator op)
    callIn .right (.expression p.tighter r.operand)
    return (if op == .asKw then .castExpr else .binaryExpr)

/-- An expression whose operators bind at least as tightly as `min`. -/
def expressionRule (min : Precedence) (r : Restrictions) : Parser Unit := do
  call .unary
  loop do
    let g ← look .operator
    match infixOperator? r g with
    | none => return false
    | some (op, p) =>
      if p.rank < min.rank then return false
      else
        wrap (fieldBefore p) (operation op p r)
        return true

/-! ## Operands -/

/-- Arguments in parentheses. -/
def arguments : Parser Unit := do
  nodeOf .argList <| delimited ⟨.lParen, .rParen, .expectedArgument, expressionFirst⟩ do
    let k ← peek
    if closers.contains k then return false
    else
      assignment .argument
      return true
  label .arguments

/-- Elements in brackets; holes and a comma at the end are allowed. -/
def elements : Parser Unit := do
  require .operator .lBrack
  take none
  loop do
    let k ← peek
    if k == .rBrack || k == .eof then return false
    else if k == .comma then
      take none
      return true
    else if closers.contains k then return false
    else
      assignment .element
      eat .comma
  expect .rBrack

/-- The tokens that can be the key of a property. -/
def keyFirst : KindSet := .ofList [.name, .string, .number]

/-- `key: value`, if a key comes next. -/
def property? : Parser Bool := do
  let k ← peek
  if keyFirst.contains k then
    nodeOf .pair do
      leaf (match k with | .name => .ident | .string => .stringLiteral | _ => .numberLiteral)
      label .key
      expect .colon
      assignment .value
    return true
  else
    return false

/-- An object literal. -/
def objectLiteral : Parser Unit :=
  nodeOf .objectLiteral <| delimited ⟨.lCurly, .rCurly, .expectedProperty, keyFirst⟩ property?

/-- Does the text at hand go on as `T>[` does, from the token at distance `i` on, with `depth`
brackets to close?  At most `limit` tokens are looked at. -/
def closesVector : (limit i depth : Nat) → Parser Bool
  | 0, _, _ => return false
  | limit + 1, i, depth => do
    let g ← ahead i
    let depth? : Option Nat :=
      match g.kind with
      | .name | .dot | .star | .colon2 => some depth
      | .dotLt => some (depth + 1)
      | .gt => if 1 ≤ depth then some (depth - 1) else none
      | .shr => if 2 ≤ depth then some (depth - 2) else none
      | .ushr => if 3 ≤ depth then some (depth - 3) else none
      | _ => none
    match depth? with
    | none => return false
    | some 0 => return (← ahead (i + 1)).kind == .lBrack
    | some depth => closesVector limit (i + 1) depth

/-- Does the `<` that comes next open a vector literal rather than an XML element? -/
def opensVector : Parser Bool := closesVector 32 1 1

/-- `<T>[elements]`. -/
def vectorBody : Parser Unit := do
  take none
  typeIn .type
  let _ ← expectIn .typeArgs .gt
  if ← sees .lBrack then elements else missing (.expected .lBrack)

/-- A function without a statement of its own. -/
def functionExpression : Parser Unit :=
  nodeOf .functionExpr do
    takeWord .functionKw none
    when (← sees .name) (name .name [])
    signature
    let found ← sees .lCurly
    (if found then block else missing .expectedFunctionBody)
    label .body

/-- A word as an operand. -/
def wordOperand (g : Glimpse) : Parser Unit :=
  match Kind.ofWord? g.text with
  | some .trueKw => wordLeaf .trueKw .booleanLiteral
  | some .falseKw => wordLeaf .falseKw .booleanLiteral
  | some .nullKw => wordLeaf .nullKw .nullLiteral
  | some .undefinedKw => wordLeaf .undefinedKw .undefinedLiteral
  | some .thisKw => wordLeaf .thisKw .thisExpr
  | some .superKw => wordLeaf .superKw .superExpr
  | some .functionKw => functionExpression
  | _ => leaf .ident

/-- An operand. -/
def operand : Parser Unit := do
  let g ← look .exprStart
  match g.kind with
  | .number => leaf .numberLiteral
  | .string => leaf .stringLiteral
  | .regex => leaf .regexLiteral
  | .name => wordOperand g
  | .lParen =>
    nodeOf .parenExpr do
      take none
      expression .expression
      expect .rParen
  | .lBrack => nodeOf .arrayLiteral elements
  | .lCurly => objectLiteral
  | .lt =>
    if ← opensVector then nodeOf .vectorLiteral vectorBody else call .element
  -- a token without a reading has been reported with its flaw
  | .unknown => leaf .error
  | _ => rejectUnless ((KindSet.ofList [.comma, .colon]).union closers) .expectedExpression

/-! ## Accesses and calls -/

/-- The name behind `.`, `..` or `::`. -/
def propertyName : Parser Unit := do
  let k ← peek
  (match k with
   | .name => leaf .ident
   | .star => leaf .wildcard
   | _ => missing .expectedPropertyName)
  label .property

/-- One access, call or trailing update around the element made last; says whether the chain may go
on.  Behind `new` a parenthesis belongs to the construction, so calls are left out there. -/
def link (calls : Bool) : Parser Bool := do
  let g ← look .operator
  match g.kind with
  | .dot =>
    wrap .object do
      take none
      if ← sees .lParen then
        take none
        expression .condition
        expect .rParen
        return .filterExpr
      else
        propertyName
        return .memberExpr
    return true
  | .dot2 =>
    wrap .object do
      take none
      propertyName
      return .descendantExpr
    return true
  | .colon2 =>
    wrap .nameSpace do
      take none
      propertyName
      return .namespaceAccessExpr
    return true
  | .dotLt =>
    wrap .base do
      typeArguments
      return .genericType
    return true
  | .lBrack =>
    wrap .object do
      take none
      expression .index
      expect .rBrack
      return .subscriptExpr
    return true
  | .lParen =>
    if calls then
      wrap .function do
        arguments
        return .callExpr
      return true
    else
      return false
  | .plus2 | .minus2 =>
    if calls && !g.startsLine then
      wrap .argument do
        take (some .operator)
        return .updateExpr
      return false
    else
      return false
  | _ => return false

/-- Accesses, calls and a trailing update. -/
def chain (calls : Bool) : Parser Unit := loop (link calls)

/-- `new` and what follows it. -/
def constructionRule : Parser Unit :=
  node do
    takeWord .newKw none
    let g ← look .exprStart
    if g.kind == .lt then
      vectorBody
      return (.vectorLiteral, ())
    else
      (if g.isWord "new" then call .construction else operand)
      chain false
      label .constructor
      when (← sees .lParen) arguments
      return (.newExpr, ())

/-- An operand with its chain. -/
def chained : Parser Unit := do
  let g ← look .exprStart
  (if g.isWord "new" then call .construction else operand)
  chain true

/-- The operator in front of an operand that a token is. -/
def leadingOperator? (g : Glimpse) : Option Kind :=
  match g.kind with
  | .name => (Kind.ofWord? g.text).filter Kind.isUnaryOperator
  | kind => if kind.isUnaryOperator || kind.isUpdateOperator then some kind else none

/-- An operand with the operators in front of it. -/
def unaryRule : Parser Unit := do
  let g ← look .exprStart
  match leadingOperator? g with
  | none => chained
  | some op =>
    nodeOf (if op.isUpdateOperator then .updateExpr else .unaryExpr) do
      takeOperator op
      callIn .argument .unary

end ActionScript.Grammar
