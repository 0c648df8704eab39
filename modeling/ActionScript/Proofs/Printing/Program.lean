import ActionScript.Proofs.Printing.Syntax

/-!
# Statements and how they are printed

Statements as they are meant, without parentheses, blanks or positions.  They are printed on one
line, with single spaces between tokens; what a semicolon ends may be ended by a line break instead.

Three things are put in parentheses or braces so that they are what they look like: an expression
that would make its statement begin with neither a name nor a parenthesis, an `in` in the first
clause of a `for`, and what follows a condition if an `else` behind it would belong to it.

* `Stmt.tokens`, `Stmt.print`: the text of statements.
* `Stmt.Licensed`: where a line break ends a statement.
* `Stmt.shape`: the shape that a statement stands for.
* `Stmt.source_shapesAll`: **the shapes have the printed text as their source**.
-/

set_option autoImplicit false

namespace ActionScript

/-! ## Statements -/

/-- How a statement ends that does not end with another one or a brace. -/
inductive Ending where
  | semicolon
  | lineBreak
  deriving DecidableEq

/-- A variable, and what it begins with, if anything. -/
structure Declarator [Alphabet] where
  name : Name
  value : Option Expr

/-- The first clause of a `for`. -/
inductive ForFirst [Alphabet] where
  | nothing
  | expression (e : Expr)
  | declaration (first : Declarator) (others : List Declarator)

/-- `return` or `throw`. -/
structure ExitKeyword where
  kind : Kind
  isExit : kind = .returnKw ∨ kind = .throwKw

/-- `break` or `continue`. -/
structure JumpKeyword where
  kind : Kind
  isJump : kind = .breakKw ∨ kind = .continueKw

mutual

/-- A statement. -/
inductive Stmt [Alphabet] where
  | empty
  | block (body : List Stmt)
  | expression (e : Expr) (ending : Ending)
  | ifThen (condition : Expr) (consequence : Stmt)
  | ifElse (condition : Expr) (consequence alternative : Stmt)
  | whileLoop (condition : Expr) (body : Stmt)
  | doLoop (body : Stmt) (condition : Expr) (ending : Ending)
  | forLoop (first : ForFirst) (condition update : Option Expr) (body : Stmt)
  | forIn (each : Bool) (target : Name) (collection : Expr) (body : Stmt)
  | withObject (object : Expr) (body : Stmt)
  | switch (value : Expr) (clauses : List Clause)
  | tryBlock (body : List Stmt) (handlers : Handlers)
  | exit (keyword : ExitKeyword) (operand : Option Expr) (ending : Ending)
  | jump (keyword : JumpKeyword) (label : Option Name) (ending : Ending)
  | labeled (label : Name) (body : Stmt)
  | declaration (first : Declarator) (others : List Declarator) (ending : Ending)

/-- A clause of a `switch`; without a value it is the default. -/
inductive Clause [Alphabet] where
  | mk (value : Option Expr) (body : List Stmt)

/-- The clauses of a `try`: at least one `catch`, and perhaps a `finally`. -/
inductive Handlers [Alphabet] where
  | last (parameter : Name) (body : List Stmt)
  | lastFinally (parameter : Name) (body finalizer : List Stmt)
  | more (parameter : Name) (body : List Stmt) (others : Handlers)

end

namespace Expr

variable [Alphabet]

mutual

/-- The name that a printed expression begins with, if it begins with one. -/
def firstName? : Expr → Option Name
  | reference target => firstNameOfReference? target
  | call function _ =>
    if function.looserThan Precedence.primary.rank then none else function.firstName?
  | trailing argument _ =>
    if argument.looserThan Precedence.primary.rank then none else argument.firstName?
  | binary op left _ => if left.looserThan op.tier.leftFloor then none else left.firstName?
  | conditional condition _ _ =>
    if condition.looserThan Precedence.ternary.leftFloor then none else condition.firstName?
  | assign _ target _ => firstNameOfReference? target
  | sequence left _ => left.firstName?
  | number _ | array _ | object _ | leading .. => none

/-- The same for a reference. -/
def firstNameOfReference? : Reference → Option Name
  | .name n => some n
  | .member base _ => if base.looserThan Precedence.primary.rank then none else base.firstName?
  | .subscript base _ => if base.looserThan Precedence.primary.rank then none else base.firstName?

end

/-- Does a printed expression begin with a name or a parenthesis? -/
def opensPlainly (e : Expr) : Bool :=
  e.firstName?.isSome || e.tokens.head? == some Kind.lParen.text

end Expr

namespace Stmt

/-- Does a statement end in an `if` without an `else`? -/
def endsInIf [Alphabet] : Stmt → Bool
  | ifThen .. => true
  | ifElse _ _ body | whileLoop _ body | forLoop _ _ _ body | forIn _ _ _ body | withObject _ body
  | labeled _ body => body.endsInIf
  | _ => false

/-- Is a statement ended by a line break? -/
def endsLine [Alphabet] : Stmt → Bool
  | expression _ ending | doLoop _ _ ending | exit _ _ ending | jump _ _ ending
  | declaration _ _ ending => ending = .lineBreak
  | ifThen _ body => !body.endsInIf && body.endsLine
  | ifElse _ _ body | whileLoop _ body | forLoop _ _ _ body | forIn _ _ _ body | withObject _ body
  | labeled _ body => body.endsLine
  | empty | block _ | switch .. | tryBlock .. => false

end Stmt

/-! ## Levels -/

/-- So many levels of nesting are enough for an expression, in parentheses if need be. -/
def Expr.levels [Alphabet] (e : Expr) : Nat := 4 * e.height + 4

/-- The same for an expression that may be left out. -/
def Expr.levelsOfOption [Alphabet] (e : Option Expr) : Nat := (e.map Expr.levels).getD 0

/-- So many levels are enough for variables. -/
def Declarator.levelsAll [Alphabet] : List Declarator → Nat
  | [] => 0
  | d :: ds => max (Expr.levelsOfOption d.value) (levelsAll ds)

/-- So many levels are enough for the first clause of a `for`. -/
def ForFirst.levels [Alphabet] : ForFirst → Nat
  | nothing => 0
  | expression e => e.levels
  | declaration first others => Declarator.levelsAll (first :: others)

namespace Stmt

variable [Alphabet]

mutual

/-- So many levels of nesting are enough for a statement. -/
def levels : Stmt → Nat
  | empty | jump .. => 0
  | block body => levelsAll body + 1
  | expression e _ => e.levels
  | ifThen condition consequence => max condition.levels (consequence.levels + 2)
  | ifElse condition consequence alternative =>
    max condition.levels (max (consequence.levels + 2) (alternative.levels + 1))
  | whileLoop e body | doLoop body e _ | forIn _ _ e body | withObject e body =>
    max e.levels (body.levels + 1)
  | forLoop first condition update body =>
    max first.levels (max (Expr.levelsOfOption condition)
      (max (Expr.levelsOfOption update) (body.levels + 1)))
  | switch value clauses => max value.levels (levelsOfClauses clauses)
  | tryBlock body handlers => max (levelsAll body + 1) (levelsOfHandlers handlers)
  | exit _ operand _ => Expr.levelsOfOption operand
  | labeled _ body => body.levels + 1
  | declaration first others _ => Declarator.levelsAll (first :: others)

/-- So many levels are enough for each of several statements. -/
def levelsAll : List Stmt → Nat
  | [] => 0
  | s :: ss => max s.levels (levelsAll ss)

/-- So many levels are enough for the clauses of a `switch`. -/
def levelsOfClauses : List Clause → Nat
  | [] => 0
  | .mk value body :: clauses =>
    max (Expr.levelsOfOption value) (max (levelsAll body + 1) (levelsOfClauses clauses))

/-- So many levels are enough for the clauses of a `try`. -/
def levelsOfHandlers : Handlers → Nat
  | .last _ body => levelsAll body + 1
  | .lastFinally _ body finalizer => max (levelsAll body + 1) (levelsAll finalizer + 1)
  | .more _ body others => max (levelsAll body + 1) (levelsOfHandlers others)

end

end Stmt

/-! ## Printing -/

/-- The token that a line break is printed as. -/
def Text.lineBreak : Text := ['\n']

/-- The token that ends a statement. -/
def Ending.text : Ending → Text
  | .semicolon => Kind.semicolon.text
  | .lineBreak => Text.lineBreak

/-- Has the value of a variable to be put in parentheses?  In the head of a `for` it has to be if it
has an `in`. -/
def Declarator.needs [Alphabet] (inHead : Bool) (e : Expr) : Bool :=
  e.looserThan Precedence.assignment.rank || (inHead && e.bareIn)

/-- The tokens of a variable that is declared. -/
def Declarator.tokens [Alphabet] (inHead : Bool) (d : Declarator) : List Text :=
  match d.value with
  | none => [d.name.text]
  | some e => d.name.text :: Kind.eq.text :: parenthesize (needs inHead e) e.tokens

/-- The tokens of several variables. -/
def Declarator.tokensAll [Alphabet] (inHead : Bool) (ds : List Declarator) : List Text :=
  separateRuns (ds.map (tokens inHead))

/-- The tokens of the first clause of a `for`. -/
def ForFirst.tokens [Alphabet] : ForFirst → List Text
  | nothing => []
  | expression e => parenthesize e.bareIn e.tokens
  | declaration first others => Kind.varKw.text :: Declarator.tokensAll true (first :: others)

/-- The tokens of an expression that may be left out. -/
def Expr.tokensOfOption [Alphabet] : Option Expr → List Text
  | none => []
  | some e => e.tokens

/-- Puts braces around tokens, if need be. -/
def enbrace (need : Bool) (tokens : List Text) : List Text :=
  if need then Kind.lCurly.text :: tokens ++ [Kind.rCurly.text] else tokens

namespace Stmt

mutual

/-- The tokens of a statement. -/
def tokens [Alphabet] : Stmt → List Text
  | empty => [Kind.semicolon.text]
  | block body => enbrace true (tokensAll body)
  | expression e ending => parenthesize (!e.opensPlainly) e.tokens ++ [ending.text]
  | ifThen condition consequence =>
    Kind.ifKw.text :: parenthesize true condition.tokens ++
      enbrace consequence.endsInIf consequence.tokens
  | ifElse condition consequence alternative =>
    Kind.ifKw.text :: parenthesize true condition.tokens ++
      enbrace consequence.endsInIf consequence.tokens ++ Kind.elseKw.text :: alternative.tokens
  | whileLoop condition body =>
    Kind.whileKw.text :: parenthesize true condition.tokens ++ body.tokens
  | doLoop body condition ending =>
    Kind.doKw.text :: body.tokens ++ Kind.whileKw.text :: parenthesize true condition.tokens ++
      [ending.text]
  | forLoop first condition update body =>
    Kind.forKw.text :: parenthesize true (first.tokens ++ Kind.semicolon.text ::
      Expr.tokensOfOption condition ++ Kind.semicolon.text :: Expr.tokensOfOption
        update) ++ body.tokens
  | forIn each target collection body =>
    Kind.forKw.text :: (if each then [Kind.eachKw.text] else []) ++
      parenthesize true (target.text :: Kind.inKw.text :: collection.tokens) ++ body.tokens
  | withObject object body => Kind.withKw.text :: parenthesize true object.tokens ++ body.tokens
  | switch value clauses =>
    Kind.switchKw.text :: parenthesize true value.tokens ++ enbrace true (tokensOfClauses clauses)
  | tryBlock body handlers =>
    Kind.tryKw.text :: enbrace true (tokensAll body) ++ tokensOfHandlers handlers
  | exit keyword operand ending =>
    keyword.kind.text :: Expr.tokensOfOption operand ++ [ending.text]
  | jump keyword label ending => keyword.kind.text :: (label.map Name.text).toList ++ [ending.text]
  | labeled label body => label.text :: Kind.colon.text :: body.tokens
  | declaration first others ending =>
    Kind.varKw.text :: Declarator.tokensAll false (first :: others) ++ [ending.text]

/-- The tokens of several statements. -/
def tokensAll [Alphabet] : List Stmt → List Text
  | [] => []
  | s :: ss => s.tokens ++ tokensAll ss

/-- The tokens of the clauses of a `switch`. -/
def tokensOfClauses [Alphabet] : List Clause → List Text
  | [] => []
  | .mk (some value) body :: clauses =>
    Kind.caseKw.text :: value.tokens ++ Kind.colon.text :: tokensAll body ++ tokensOfClauses clauses
  | .mk none body :: clauses =>
    Kind.defaultKw.text :: Kind.colon.text :: tokensAll body ++ tokensOfClauses clauses

/-- The tokens of the clauses of a `try`. -/
def tokensOfHandlers [Alphabet] : Handlers → List Text
  | .last parameter body =>
    Kind.catchKw.text :: parenthesize true [parameter.text] ++ enbrace true (tokensAll body)
  | .lastFinally parameter body finalizer =>
    Kind.catchKw.text :: parenthesize true [parameter.text] ++ enbrace true (tokensAll body) ++
      Kind.finallyKw.text :: enbrace true (tokensAll finalizer)
  | .more parameter body others =>
    Kind.catchKw.text :: parenthesize true [parameter.text] ++ enbrace true (tokensAll body) ++
      tokensOfHandlers others

end

/-- The text of statements, with single spaces between their tokens. -/
def print [Alphabet] (program : List Stmt) : Text := [' '].intercalate (tokensAll program)

/-- Line breaks end statements: none stands where the next token would go on with the statement, or
would be its semicolon. -/
def Licensed (tokens : List Text) : Prop :=
  tokens.IsChain fun t u => t = Text.lineBreak → u ≠ Kind.lParen.text ∧ u ≠ Kind.semicolon.text

end Stmt

/-! ## The shapes that are meant -/

namespace Shape

mutual

/-- A shape with something in front of its first token. -/
def led (lead : List Trivia) : Shape → Shape
  | .token kind field _ text trailing => .token kind field lead text trailing
  | .node kind field children => .node kind field (ledFirst lead children)

/-- Shapes with something in front of their first token. -/
def ledFirst (lead : List Trivia) : List Shape → List Shape
  | [] => []
  | s :: ss => s.led lead :: ss

end

/-- A keyword or a sign, with what stands in front of it and behind it. -/
def word (k : Kind) (lead tail : List Trivia) : Shape := .token k none lead k.text tail

/-- An expression in parentheses that belong to a statement. -/
def enclosed [Alphabet] (field : Field) (e : Expr) : List Shape :=
  [sign .lParen none Trivia.gap, (e.shape Trivia.gap).withField field, sign .rParen none Trivia.gap]

/-- An expression that may be left out. -/
def optional [Alphabet] (field : Field) : Option Expr → List Shape
  | none => []
  | some e => [(e.shape Trivia.gap).withField field]

/-- Statements in braces; `close` stands in front of the closing one. -/
def braces (kind : Kind) (inner : List Shape) (lead close tail : List Trivia) : Shape :=
  .node kind none (word .lCurly lead Trivia.gap :: inner ++ [word .rCurly close tail])

/-- A statement in braces, if need be; without them it leaves something for the next token. -/
def guard (need : Bool) (x : Phrase) (close : List Trivia) : Phrase := fun tail =>
  if need then braces .block [x Trivia.gap] [] close tail else x tail

/-- A `catch` with its block. -/
def caught [Alphabet] (parameter : Name) (body : Shape) : Shape :=
  .node .catchClause (some .handler)
    [word .catchKw [] Trivia.gap, sign .lParen none Trivia.gap,
      (ident parameter Trivia.gap).withField .parameter, sign .rParen none Trivia.gap,
      body.withField .body]

end Shape

open Shape Trivia

/-- The token at the end of a statement; a line break belongs to the next token. -/
def Ending.shapes : Ending → List Trivia → List Shape
  | .semicolon, tail => [sign .semicolon none tail]
  | .lineBreak, _ => []

/-- The shape of a variable that is declared. -/
def Declarator.shape [Alphabet] (inHead : Bool) (d : Declarator) : Shape :=
  .node .variableDeclarator (some .declarator) <|
    match d.value with
    | none => [(ident d.name gap).withField .name]
    | some e => [(ident d.name gap).withField .name, sign .eq none gap,
        slot .value (needs inHead e) e.shape gap]

/-- The shapes of several variables, with what stands in front of them. -/
def Declarator.shapesAll [Alphabet] (inHead : Bool) (ds : List Declarator) : List Shape :=
  separate (ds.map (shape inHead))

/-- The shape of the first clause of a `for`. -/
def ForFirst.shapes [Alphabet] : ForFirst → List Shape
  | nothing => []
  | expression e => [slot .initializer e.bareIn e.shape gap]
  | declaration first others =>
    [.node .variableDecl (some .initializer)
      (word .varKw [] gap :: Declarator.shapesAll true (first :: others))]

/-- The node that `return` or `throw` makes. -/
def ExitKeyword.node (k : ExitKeyword) : Kind :=
  if k.kind = .returnKw then .returnStmt else .throwStmt

/-- The node that `break` or `continue` makes. -/
def JumpKeyword.node (k : JumpKeyword) : Kind :=
  if k.kind = .breakKw then .breakStmt else .continueStmt

namespace Stmt

variable [Alphabet]

/-- What a statement leaves for the next token to stand in front of it. -/
def leaves (s : Stmt) (tail : List Trivia) : List Trivia :=
  if s.endsLine then ⟨.newline, ['\n']⟩ :: tail else []

/-- What statements leave for the next token, if `lead` stands in front of them. -/
def leavesAll (ss : List Stmt) (lead tail : List Trivia) : List Trivia :=
  ss.foldl (fun _ s => s.leaves tail) lead

/-- What the clauses of a `switch` leave for the next token. -/
def leavesOfClauses : List Clause → List Trivia → List Trivia
  | [], lead => lead
  | .mk _ body :: clauses, _ => leavesOfClauses clauses (leavesAll body [] gap)

mutual

/-- The shape of a statement, with `lead` in front of it and `tail` behind its last token. -/
def shape : Stmt → (lead tail : List Trivia) → Shape
  | empty, lead, tail => .node .emptyStmt none [word .semicolon lead tail]
  | block body, lead,
      tail => braces .block (shapesAll body [] gap) lead (leavesAll body [] gap) tail
  | expression e ending, lead, tail =>
    .node .exprStmt none
      (((bracket (!e.opensPlainly) e.shape gap).led lead).withField .expression ::
        ending.shapes tail)
  | ifThen condition consequence, lead, tail =>
    .node .ifStmt none
      (word .ifKw lead gap :: enclosed .condition condition ++
        [(guard consequence.endsInIf (consequence.shape []) (consequence.leaves gap) tail).withField
          .consequence])
  | ifElse condition consequence alternative, lead, tail =>
    .node .ifStmt none
      (word .ifKw lead gap :: enclosed .condition condition ++
        [(guard consequence.endsInIf (consequence.shape []) (consequence.leaves gap) gap).withField
          .consequence,
          .node .elseClause (some .alternative)
            [word .elseKw (if consequence.endsInIf then [] else consequence.leaves gap) gap,
              (alternative.shape [] tail).withField .body]])
  | whileLoop condition body, lead, tail =>
    .node .whileStmt none
      (word .whileKw lead gap :: enclosed .condition condition ++
        [(body.shape [] tail).withField .body])
  | doLoop body condition ending, lead, tail =>
    .node .doStmt none
      (word .doKw lead gap :: (body.shape [] gap).withField .body ::
        word .whileKw (body.leaves gap) gap :: enclosed .condition condition ++ ending.shapes tail)
  | forLoop first condition update body, lead, tail =>
    .node .forStmt none
      (word .forKw lead gap :: sign .lParen none gap :: first.shapes ++
        sign .semicolon none gap :: optional .condition condition ++
        sign .semicolon none gap :: optional .update update ++
        [sign .rParen none gap, (body.shape [] tail).withField .body])
  | forIn each target collection body, lead, tail =>
    .node (if each then .forEachInStmt else .forInStmt) none
      (word .forKw lead gap :: (if each then [word .eachKw [] gap] else []) ++
        [sign .lParen none gap, (ident target gap).withField .left, sign .inKw none gap,
          (collection.shape gap).withField .right, sign .rParen none gap,
          (body.shape [] tail).withField .body])
  | withObject object body, lead, tail =>
    .node .withStmt none
      (word .withKw lead gap :: enclosed .object object ++ [(body.shape [] tail).withField .body])
  | switch value clauses, lead, tail =>
    .node .switchStmt none
      (word .switchKw lead gap :: enclosed .value value ++
        [(braces .switchBody (shapesOfClauses clauses []) [] (leavesOfClauses clauses [])
          tail).withField
          .body])
  | tryBlock body handlers, lead, tail =>
    .node .tryStmt none
      (word .tryKw lead gap ::
        (braces .block (shapesAll body [] gap) [] (leavesAll body [] gap) gap).withField .body ::
        shapesOfHandlers handlers tail)
  | exit keyword operand ending, lead, tail =>
    .node keyword.node none
      (word keyword.kind lead gap :: optional .value operand ++ ending.shapes tail)
  | jump keyword label ending, lead, tail =>
    .node keyword.node none
      (word keyword.kind lead gap ::
        (label.map fun n => (ident n gap).withField .label).toList ++ ending.shapes tail)
  | labeled label body, lead, tail =>
    .node .labeledStmt none
      [((ident label gap).led lead).withField .label, sign .colon none gap,
        (body.shape [] tail).withField .body]
  | declaration first others ending, lead, tail =>
    .node .variableDecl none
      (word .varKw lead gap :: Declarator.shapesAll false (first :: others) ++ ending.shapes tail)

/-- The shapes of statements, with `lead` in front of them and `tail` behind their last token. -/
def shapesAll : List Stmt → (lead tail : List Trivia) → List Shape
  | [], _, _ => []
  | s :: ss, lead, tail =>
    s.shape lead (if ss.isEmpty then tail else gap) :: shapesAll ss (s.leaves gap) tail

/-- The shapes of the clauses of a `switch`. -/
def shapesOfClauses : List Clause → (lead : List Trivia) → List Shape
  | [], _ => []
  | .mk (some value) body :: clauses, lead =>
    .node .caseClause none
      (word .caseKw lead gap :: (value.shape gap).withField .value :: sign .colon none gap ::
        (shapesAll body [] gap).map (withField .body)) ::
      shapesOfClauses clauses (leavesAll body [] gap)
  | .mk none body :: clauses, lead =>
    .node .defaultClause none
      (word .defaultKw lead gap :: sign .colon none gap ::
        (shapesAll body [] gap).map (withField .body)) ::
      shapesOfClauses clauses (leavesAll body [] gap)

/-- The shapes of the clauses of a `try`. -/
def shapesOfHandlers : Handlers → (tail : List Trivia) → List Shape
  | .last parameter body, tail =>
    [caught parameter (braces .block (shapesAll body [] gap) [] (leavesAll body [] gap) tail)]
  | .lastFinally parameter body finalizer, tail =>
    [caught parameter (braces .block (shapesAll body [] gap) [] (leavesAll body [] gap) gap),
      .node .finallyClause (some .finalizer)
        [word .finallyKw [] gap,
          (braces .block (shapesAll finalizer [] gap) [] (leavesAll finalizer [] gap)
            tail).withField
            .body]]
  | .more parameter body others, tail =>
    caught parameter (braces .block (shapesAll body [] gap) [] (leavesAll body [] gap) gap) ::
      shapesOfHandlers others tail

end

/-- The root that statements stand for: their shapes, and the end of the text. -/
def program (ss : List Stmt) : Stem :=
  ⟨.sourceFile, none,
    .token .eof none (leavesAll ss [] []) [] [] :: (shapesAll ss [] []).reverse⟩

end Stmt

/-! ## The source of the shapes -/

theorem spaced_cons_gap (t : Text) (ts : List Text) :
    spaced (t :: ts) [' '] = t ++ ' ' :: spaced ts [' '] := by
  cases ts <;> rfl

theorem spaced_append_gap (ts us : List Text) :
    spaced (ts ++ us) [' '] = spaced ts [' '] ++ spaced us [' '] := by
  cases us with
  | nil => simp [spaced]
  | cons u us => exact spaced_append ts (List.cons_ne_nil u us) [' ']

namespace Shape

mutual

/-- Does nothing stand in front of the first token of a shape? -/
def isBare : Shape → Bool
  | .token _ _ leading _ _ => leading.isEmpty
  | .node _ _ children => beginsBare children

/-- Does nothing stand in front of the first token of the first of several shapes? -/
def beginsBare : List Shape → Bool
  | [] => false
  | s :: _ => s.isBare

end

mutual

theorem source_led (lead : List Trivia) {s : Shape} (h : s.isBare = true) :
    (s.led lead).source = flatten lead ++ s.source := by
  cases s with
  | token kind field leading text trailing =>
    obtain rfl : leading = [] := by simpa [isBare] using h
    simp [led, source, flatten]
  | node kind field children =>
    rw [isBare] at h
    rw [led, source, source, sourceAll_ledFirst lead h]

theorem sourceAll_ledFirst (lead : List Trivia) {ss : List Shape} (h : beginsBare ss = true) :
    sourceAll (ledFirst lead ss) = flatten lead ++ sourceAll ss := by
  match ss with
  | [] => cases h
  | s :: ss =>
    rw [beginsBare] at h
    rw [ledFirst, sourceAll, sourceAll, source_led lead h, List.append_assoc]

end

@[simp] theorem isBare_withField (f : Field) (s : Shape) : (s.withField f).isBare = s.isBare := by
  cases s <;> simp [withField, isBare]

theorem isBare_slot (field : Field) (need : Bool) {x : Phrase}
    (h : ∀ tail, (x tail).isBare = true) (tail : List Trivia) :
    (slot field need x tail).isBare = true := by
  rw [slot, isBare_withField, bracket]
  split
  · rfl
  · exact h tail

end Shape

namespace Expr

mutual

theorem isBare_shape [Alphabet] (e : Expr) (tail : List Trivia) : (e.shape tail).isBare = true := by
  cases e with
  | reference target => exact isBare_shapeOfReference target tail
  | number _ | array _ | object _ | leading _ _ => rfl
  | call function _ =>
    rw [shape, isBare, beginsBare]
    exact isBare_slot _ _ function.isBare_shape gap
  | trailing argument _ =>
    rw [shape, isBare, beginsBare]
    exact isBare_slot _ _ argument.isBare_shape gap
  | binary _ left _ =>
    rw [shape, isBare, beginsBare]
    exact isBare_slot _ _ left.isBare_shape gap
  | conditional condition _ _ =>
    rw [shape, isBare, beginsBare]
    exact isBare_slot _ _ condition.isBare_shape gap
  | assign _ target _ =>
    rw [shape, isBare, beginsBare, isBare_withField]
    exact isBare_shapeOfReference target gap
  | sequence left _ =>
    rw [shape, isBare, beginsBare, isBare_withField]
    exact left.isBare_shape gap

theorem isBare_shapeOfReference [Alphabet] (r : Reference) (tail : List Trivia) :
    (shapeOfReference r tail).isBare = true := by
  cases r with
  | name _ => rfl
  | member base _ =>
    rw [shapeOfReference, isBare, beginsBare]
    exact isBare_slot _ _ base.isBare_shape gap
  | subscript base _ =>
    rw [shapeOfReference, isBare, beginsBare]
    exact isBare_slot _ _ base.isBare_shape gap

end

end Expr

namespace Shape

theorem sourceAll_map_withField (f : Field) (ss : List Shape) :
    sourceAll (ss.map (withField f)) = sourceAll ss := by
  induction ss with
  | nil => rfl
  | cons s ss ih => rw [List.map_cons, sourceAll, sourceAll, source_withField, ih]

theorem source_word (k : Kind) (lead tail : List Trivia) :
    (word k lead tail).source = flatten lead ++ (k.text ++ flatten tail) := by
  simp [word, source]

/-- An expression in parentheses where need be has its tokens as its source. -/
theorem source_bracket [Alphabet] (need : Bool) (e : Expr) (tail : List Trivia) :
    (bracket need e.shape tail).source = spaced (parenthesize need e.tokens) (flatten tail) := by
  have hslot : (slot .value need e.shape tail).source =
      spaced (parenthesize need e.tokens) (flatten tail) := source_slot e.source_shape tail
  rwa [slot, source_withField] at hslot

theorem source_led_bracket [Alphabet] (need : Bool) (e : Expr) (lead tail : List Trivia) :
    ((bracket need e.shape tail).led lead).source =
      flatten lead ++ spaced (parenthesize need e.tokens) (flatten tail) := by
  have hbare := isBare_slot .value need e.isBare_shape tail
  rw [slot, isBare_withField] at hbare
  rw [source_led lead hbare, source_bracket]

theorem sourceAll_enclosed [Alphabet] (field : Field) (e : Expr) :
    sourceAll (enclosed field e) = spaced (parenthesize true e.tokens) [' '] := by
  simp [enclosed, sourceAll, source_sign, flatten_gap, parenthesize, e.source_shape, spaced_cons,
    spaced_append]

theorem sourceAll_optional [Alphabet] (field : Field) (e : Option Expr) :
    sourceAll (optional field e) = spaced (Expr.tokensOfOption e) [' '] := by
  cases e with
  | none => rfl
  | some e => simp [optional, Expr.tokensOfOption, sourceAll, e.source_shape, flatten_gap]

/-- Statements in braces have their tokens in braces as their source. -/
theorem source_braces {inner : List Shape} {close : List Trivia} {ts : List Text}
    (h : ∀ rest, sourceAll inner ++ (flatten close ++ rest) = spaced ts [' '] ++ rest) (kind : Kind)
    (lead tail : List Trivia) :
    (braces kind inner lead close tail).source =
      flatten lead ++ spaced (enbrace true ts) (flatten tail) := by
  simp [braces, source, sourceAll, sourceAll_append, source_word, h, enbrace, flatten_gap,
    spaced_cons, spaced_append]

end Shape

theorem Ending.source_shapes (ending : Ending) (tail : List Trivia) :
    sourceAll (ending.shapes tail) ++
        flatten (if ending = .lineBreak then ⟨.newline, ['\n']⟩ :: tail else []) =
      ending.text ++ flatten tail := by
  cases ending with
  | semicolon => simp [shapes, sourceAll, source_sign, text, flatten]
  | lineBreak => simp [shapes, sourceAll, text, Text.lineBreak, flatten]

variable [Alphabet]

theorem Declarator.tokens_ne_nil (inHead : Bool) (d : Declarator) : d.tokens inHead ≠ [] := by
  unfold tokens
  split <;> simp

theorem Declarator.source_shape (inHead : Bool) (d : Declarator) :
    (d.shape inHead).source = spaced (d.tokens inHead) [' '] := by
  unfold shape tokens
  cases d.value with
  | none => simp [source, sourceAll, source_ident, flatten_gap]
  | some e =>
    simp [source, sourceAll, source_ident, source_sign, source_slot e.source_shape, flatten_gap,
      spaced_cons]

/-- Variables with commas in between have their tokens with commas in between as their source. -/
theorem Declarator.source_shapesAll (inHead : Bool) (ds : List Declarator) :
    sourceAll (shapesAll inHead ds) = spaced (tokensAll inHead ds) [' '] := by
  refine source_separate ?_
  induction ds with
  | nil => exact .nil
  | cons d ds ih => exact .cons ⟨tokens_ne_nil inHead d, source_shape inHead d⟩ ih

theorem Declarator.tokensAll_ne_nil (inHead : Bool) (d : Declarator) (ds : List Declarator) :
    tokensAll inHead (d :: ds) ≠ [] := by
  have hne := d.tokens_ne_nil inHead
  cases ds with
  | nil => simpa [tokensAll, separateRuns] using hne
  | cons _ _ => simp [tokensAll, separateRuns, List.intercalate_cons_cons, hne]

theorem ForFirst.source_shapes (first : ForFirst) :
    sourceAll first.shapes = spaced first.tokens [' '] := by
  cases first with
  | nothing => rfl
  | expression e => simp [shapes, tokens, sourceAll, source_slot e.source_shape, flatten_gap]
  | declaration first others =>
    simp [shapes, tokens, source, sourceAll, source_word, Declarator.source_shapesAll, spaced_cons,
      Declarator.tokensAll_ne_nil, flatten_gap]

namespace Stmt

omit [Alphabet] in
@[simp] theorem enbrace_ne_nil {need : Bool} {ts : List Text} (h : ts ≠ []) :
    enbrace need ts ≠ [] := by
  cases need <;> simp [enbrace, h]

@[simp] theorem tokens_ne_nil (s : Stmt) : s.tokens ≠ [] := by
  cases s with
  | empty | expression _ _ | ifThen _ _ | ifElse _ _ _ | whileLoop _ _ | doLoop _ _ _
  | forLoop _ _ _ _ | forIn _ _ _ _ | withObject _ _ | switch _ _ | tryBlock _ _ | exit _ _ _
  | jump _ _ _ | labeled _ _ | declaration _ _ _ => simp [tokens]
  | block _ => simp [tokens, enbrace]

@[simp] theorem tokensOfHandlers_ne_nil (handlers : Handlers) : tokensOfHandlers handlers ≠ [] := by
  cases handlers <;> simp [tokensOfHandlers]

/-- A statement in braces where need be has its tokens in braces as its source. -/
theorem source_guard {s : Stmt}
    (h : ∀ tail rest, (s.shape [] tail).source ++ (flatten (s.leaves tail) ++ rest) =
      spaced s.tokens (flatten tail) ++ rest) (need : Bool) (tail : List Trivia) (rest : Text) :
    (guard need (s.shape []) (s.leaves gap) tail).source ++
        (flatten (if need then [] else s.leaves tail) ++ rest) =
      spaced (enbrace need s.tokens) (flatten tail) ++ rest := by
  cases need with
  | false => exact h tail rest
  | true =>
    have hinner (rest : Text) : sourceAll [s.shape [] gap] ++ (flatten (s.leaves gap) ++ rest) =
        spaced s.tokens [' '] ++ rest := by
      rw [sourceAll, sourceAll, List.append_nil]
      exact h gap rest
    simp [Shape.guard, source_braces hinner]

theorem leaves_ifThen (condition : Expr) (s : Stmt) (tail : List Trivia) :
    (ifThen condition s).leaves tail = if s.endsInIf then [] else s.leaves tail := by
  cases h : s.endsInIf <;> simp [leaves, endsLine, h]

mutual

/-- **The shape of a statement has the printed text as its source**, but for a line break that ends
it, which belongs to the next token. -/
theorem source_shape (s : Stmt) (lead tail : List Trivia) (rest : Text) :
    (s.shape lead tail).source ++ (flatten (s.leaves tail) ++ rest) =
      flatten lead ++ (spaced s.tokens (flatten tail) ++ rest) := by
  cases s with
  | empty => simp [shape, tokens, source, sourceAll, source_word, leaves, endsLine]
  | block body =>
    have hbody := source_braces (source_shapesAll body [] gap) .block lead tail
    simp [shape, tokens, hbody, leaves, endsLine]
  | expression e ending =>
    have hending := ending.source_shapes tail
    simp [shape, tokens, source, sourceAll, source_led_bracket, spaced_append, flatten_gap, leaves,
      endsLine, ← hending]
  | ifThen condition consequence =>
    have hbody := source_guard (consequence.source_shape []) consequence.endsInIf tail rest
    simp [shape, tokens, source, sourceAll, sourceAll_append, source_word, sourceAll_enclosed,
      spaced_cons, spaced_append, flatten_gap, leaves_ifThen, hbody]
  | ifElse condition consequence alternative =>
    have hbody := source_guard (consequence.source_shape []) consequence.endsInIf gap
    have helse := alternative.source_shape [] tail rest
    have hleaves :
        (ifElse condition consequence alternative).leaves tail = alternative.leaves tail :=
      rfl
    simp [shape, tokens, source, sourceAll, sourceAll_append, source_word, sourceAll_enclosed,
      spaced_cons, spaced_append, flatten_gap, hleaves, hbody, helse]
  | whileLoop condition body =>
    have hbody := body.source_shape [] tail rest
    have hleaves : (whileLoop condition body).leaves tail = body.leaves tail := rfl
    simp [shape, tokens, source, sourceAll, sourceAll_append, source_word, sourceAll_enclosed,
      spaced_cons, spaced_append, flatten_gap, hleaves, hbody]
  | doLoop body condition ending =>
    have hending := ending.source_shapes tail
    have hbody := body.source_shape [] gap
    have hleaves : (doLoop body condition ending).leaves tail =
        if ending = .lineBreak then ⟨.newline, ['\n']⟩ :: tail else [] := by
      simp [leaves, endsLine]
    simp [shape, tokens, source, sourceAll, sourceAll_append, source_word,
      sourceAll_enclosed, hbody, spaced_cons, spaced_append, flatten_gap, hleaves, ← hending]
  | forLoop first condition update body =>
    have hbody := body.source_shape [] tail rest
    have hleaves : (forLoop first condition update body).leaves tail = body.leaves tail := rfl
    simp [shape, tokens, source, sourceAll, sourceAll_append, source_word, source_sign,
      first.source_shapes, sourceAll_optional, parenthesize, spaced_cons, spaced_append,
        flatten_gap,
      hleaves, hbody]
  | forIn each target collection body =>
    have hbody := body.source_shape [] tail rest
    have hleaves : (forIn each target collection body).leaves tail = body.leaves tail := rfl
    cases each <;> simp [shape, tokens, source, sourceAll, source_word, source_sign, source_ident,
      collection.source_shape, parenthesize, spaced_cons, spaced_append, flatten_gap,
      hleaves, hbody]
  | withObject object body =>
    have hbody := body.source_shape [] tail rest
    have hleaves : (withObject object body).leaves tail = body.leaves tail := rfl
    simp [shape, tokens, source, sourceAll, sourceAll_append, source_word, sourceAll_enclosed,
      spaced_cons, spaced_append, flatten_gap, hleaves, hbody]
  | switch value clauses =>
    have hclauses := source_braces (source_shapesOfClauses clauses []) .switchBody [] tail
    simp [shape, tokens, source, sourceAll, sourceAll_append, source_word, sourceAll_enclosed,
      spaced_cons, spaced_append, enbrace, flatten_gap, hclauses, leaves, endsLine]
  | tryBlock body handlers =>
    have hbody := source_braces (source_shapesAll body [] gap) .block [] gap
    have hhandlers := source_shapesOfHandlers handlers tail
    simp [shape, tokens, source, sourceAll, source_word, spaced_cons, spaced_append, enbrace,
      flatten_gap, hbody, hhandlers, leaves, endsLine]
  | exit keyword operand ending =>
    have hending := ending.source_shapes tail
    simp [shape, tokens, source, sourceAll, sourceAll_append, source_word, sourceAll_optional,
      spaced_cons, spaced_append, flatten_gap, leaves, endsLine, ← hending]
  | jump keyword label ending =>
    have hending := ending.source_shapes tail
    cases label <;> simp [shape, tokens, source, sourceAll, source_word, source_ident, spaced_cons,
      flatten_gap, leaves, endsLine, ← hending]
  | labeled label body =>
    have hbody := body.source_shape [] tail rest
    have hleaves : (labeled label body).leaves tail = body.leaves tail := rfl
    have hlabel :
        ((ident label gap).led lead).source = flatten lead ++ (label.text ++ flatten gap) := by
      rw [source_led lead rfl, source_ident]
    simp [shape, tokens, source, sourceAll, source_sign, hlabel, spaced_cons, flatten_gap, hleaves,
      hbody]
  | declaration first others ending =>
    have hending := ending.source_shapes tail
    simp [shape, tokens, source, sourceAll, sourceAll_append, source_word,
      Declarator.source_shapesAll, spaced_cons, spaced_append, flatten_gap, leaves,
      endsLine, ← hending]

theorem source_shapesAll (ss : List Stmt) (lead tail : List Trivia) (rest : Text) :
    sourceAll (shapesAll ss lead tail) ++ (flatten (leavesAll ss lead tail) ++ rest) =
      flatten lead ++ (spaced (tokensAll ss) (flatten tail) ++ rest) := by
  cases ss with
  | nil => simp [shapesAll, tokensAll, leavesAll, sourceAll, spaced]
  | cons s ss =>
    have hs := s.source_shape lead
    cases ss with
    | nil => simpa [shapesAll, tokensAll, leavesAll, sourceAll] using hs tail rest
    | cons t ts =>
      have hrest := source_shapesAll (t :: ts) (s.leaves gap) tail rest
      have hleaves : leavesAll (s :: t :: ts) lead tail = leavesAll (t :: ts) (s.leaves gap) tail :=
        rfl
      have htokens : tokensAll (s :: t :: ts) = s.tokens ++ tokensAll (t :: ts) := rfl
      have hne : tokensAll (t :: ts) ≠ [] := by simp [tokensAll]
      rw [hleaves, shapesAll, sourceAll, List.append_assoc, hrest, htokens, spaced_append _ hne,
        List.append_assoc]
      exact hs gap _

theorem source_shapesOfClauses (clauses : List Clause) (lead : List Trivia) (rest : Text) :
    sourceAll (shapesOfClauses clauses lead) ++ (flatten (leavesOfClauses clauses lead) ++ rest) =
      flatten lead ++ (spaced (tokensOfClauses clauses) [' '] ++ rest) := by
  match clauses with
  | [] => simp [shapesOfClauses, tokensOfClauses, leavesOfClauses, sourceAll, spaced]
  | .mk (some value) body :: clauses =>
    have hbody := source_shapesAll body [] gap
    have hclauses := source_shapesOfClauses clauses (leavesAll body [] gap) rest
    simp [shapesOfClauses, tokensOfClauses, leavesOfClauses, source, sourceAll, source_word,
      source_sign, sourceAll_map_withField, value.source_shape, spaced_cons_gap, spaced_append_gap,
      flatten_gap, hbody, hclauses]
  | .mk none body :: clauses =>
    have hbody := source_shapesAll body [] gap
    have hclauses := source_shapesOfClauses clauses (leavesAll body [] gap) rest
    simp [shapesOfClauses, tokensOfClauses, leavesOfClauses, source, sourceAll, source_word,
      source_sign, sourceAll_map_withField, spaced_cons_gap, spaced_append_gap, flatten_gap, hbody,
      hclauses]

theorem source_shapesOfHandlers (handlers : Handlers) (tail : List Trivia) :
    sourceAll (shapesOfHandlers handlers tail) =
      spaced (tokensOfHandlers handlers) (flatten tail) := by
  cases handlers with
  | last parameter body =>
    have hbody := source_braces (source_shapesAll body [] gap) .block [] tail
    simp [shapesOfHandlers, tokensOfHandlers, caught, source, sourceAll, source_word, source_sign,
      source_ident, parenthesize, enbrace, spaced_cons, flatten_gap, hbody]
  | lastFinally parameter body finalizer =>
    have hbody := source_braces (source_shapesAll body [] gap) .block [] gap
    have hfinalizer := source_braces (source_shapesAll finalizer [] gap) .block [] tail
    simp [shapesOfHandlers, tokensOfHandlers, caught, source, sourceAll, source_word, source_sign,
      source_ident, parenthesize, enbrace, spaced_cons, spaced_append, flatten_gap,
      hbody, hfinalizer]
  | more parameter body others =>
    have hbody := source_braces (source_shapesAll body [] gap) .block [] gap
    have hothers := source_shapesOfHandlers others tail
    simp [shapesOfHandlers, tokensOfHandlers, caught, source, sourceAll, source_word, source_sign,
      source_ident, parenthesize, enbrace, spaced_cons, spaced_append, flatten_gap, hbody, hothers]

end

/-- **The shapes of a program have its text as their source**, with the end of the text behind
them. -/
theorem sourceAll_program (ss : List Stmt) :
    sourceAll (program ss).children.reverse = print ss := by
  have hsource := source_shapesAll ss [] [] []
  have hprint : spaced (tokensAll ss) [] = print ss := spaced_nil _
  simpa [program, sourceAll_append, sourceAll, source, flatten, hprint] using hsource

end Stmt

end ActionScript
