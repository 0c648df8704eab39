import ActionScript.Grammar.Statements
import ActionScript.Proofs.Safety.Declarations
import ActionScript.Proofs.Safety.Elements

/-!
# Statements are safe

A statement is recognised by its first token as it is read before an operand.  Where that is another
token than the one read after an operand, the statement is an expression, so recognising it goes by
the right token.

* `safe_statementRule`, `moves_statementRule`: a statement is safe everywhere and moves on except
  before `}` and at the end of the text.
* `safe_rule`, `makes_rule`, `moves_rule`: all rules keep what a setting promises of them.
-/

set_option autoImplicit false

namespace ActionScript.Setting

open ActionScript.Parser ActionScript.Grammar

variable [Alphabet] {E : Setting} {s : State}

/-! ## Parts of statements -/

@[simp] theorem safe_statementIn (field : Field) : E.Safe (statementIn field) s :=
  safe_callIn.2 trivial

@[simp] theorem safe_expressionStatement : E.Safe expressionStatement s := by
  simp [expressionStatement]

theorem makes_expressionStatement : s.Makes (E.after expressionStatement s) := makes_nodeOf _ _

theorem moves_expressionStatement (h : (Rule.expression .comma {}).Starts s) :
    s.Moves (E.after expressionStatement s) := by
  have hne : s.place.ahead ≠ .eof := by
    intro he
    simp only [Rule.Starts, he] at h
    exact absurd h (by decide)
  refine moves_nodeOf (Place.rest_ne_nil_of_ahead hne) fun t hp _ => moves_bind_left ?_
  refine moves_callIn trivial ?_
  simp only [Rule.Starts, hp] at h ⊢
  exact h

@[simp] theorem safe_parenthesized (field : Field) : E.Safe (parenthesized field) s := by
  simp [parenthesized]

@[simp] theorem safe_bodyBlock : E.Safe bodyBlock s := by
  simp [bodyBlock]

/-! ## The statements -/

theorem safe_ifStatement (h : s.Sees (Token.IsWordFor .ifKw)) : E.Safe ifStatement s := by
  simp only [ifStatement, safe_nodeOf, safe_bind, safe_takeWord, safe_parenthesized,
    safe_statementIn, true_and]
  exact ⟨h.enter _ _, safe_clause? rfl fun _ => safe_statementIn _⟩

@[simp] theorem safe_clauseStatements : E.Safe clauseStatements s := by
  refine Safe.loop' fun t => ?_
  simp only [runs_bind, runs_look, runs_ite, runs_pure, glimpse_kind, Place.next_operator_kind,
    Bool.or_eq_true, beq_iff_eq, not_or, Bool.false_eq_true, false_implies, implies_true, true_and,
    and_imp, forall_const]
  intro hcurly hne _ _
  exact ⟨safe_statementIn _, moves_callIn (s := t.inMode .operator) trivial ⟨hne, hcurly⟩⟩

/-- A clause of `switch`, or what stands in its place, is safe and moves on. -/
theorem runs_switchClause {Q : State → Prop} (h : s.place.ahead ≠ .eof)
    (hq : ∀ t : State, s.Moves t → Q t) :
    E.Runs (switchClause (State.glimpse (s.place.next .operator).1)) (s.inMode .operator)
      fun _ t => Q t := by
  have htoken : (s.inMode .operator).token.kind ≠ .eof := h
  unfold switchClause
  rw [runs_ite]
  refine ⟨fun hcase => ?_, fun _ => ?_⟩
  · have hsees : (s.inMode .operator).Sees (Token.IsWordFor .caseKw) :=
      State.sees_inMode.2 fun _ => .of_isWord hcase rfl rfl
    refine ⟨?_, hq _ (State.moves_inMode.1 (moves_nodeOf_takeWord htoken))⟩
    simpa using hsees.enter _ _
  · rw [runs_ite]
    refine ⟨fun hdefault => ?_, fun _ => ?_⟩
    · have hsees : (s.inMode .operator).Sees (Token.IsWordFor .defaultKw) :=
        State.sees_inMode.2 fun _ => .of_isWord hdefault rfl rfl
      refine ⟨?_, hq _ (State.moves_inMode.1 (moves_nodeOf_takeWord htoken))⟩
      simpa using hsees.enter _ _
    · exact ⟨safe_reject _, hq _ (moves_reject (s := s.inMode .operator) h)⟩

theorem safe_switchStatement (h : s.Sees (Token.IsWordFor .switchKw)) :
    E.Safe switchStatement s := by
  simp only [switchStatement, safe_nodeOf, safe_bind, safe_takeWord, safe_parenthesized, safe_sees,
    val_sees, after_sees, safe_ite, safe_take, safe_missing, safe_label, after_ite, after_nodeOf,
    State.endsInNode_ite, State.endsInNode_close, endsInNode_missing, implies_true, true_and,
    and_true, beq_iff_eq]
  refine ⟨h.enter _ _, fun hcurly => ?_⟩
  refine ⟨(State.hasToken_of_kind hcurly (by decide)).enter _ _, Safe.loop' fun t => ?_,
    safe_expect (by decide)⟩
  simp only [runs_bind, runs_look, runs_ite, runs_pure, glimpse_kind, Place.next_operator_kind,
    Bool.or_eq_true, beq_iff_eq, not_or, Bool.false_eq_true, false_implies, implies_true, true_and,
    and_imp, forall_const]
  exact fun _ hne => runs_switchClause hne fun _ h => h

/-- The head of a `for` is a node if there is one. -/
theorem runs_forHead : E.Runs forHead s fun headed t => headed = true → t.EndsInNode := by
  simp only [forHead, runs_bind, runs_look, runs_ite, runs_pure, glimpse_kind,
    Place.next_operator_kind, Bool.or_eq_true, Bool.false_eq_true, false_implies, implies_true,
    true_and, forall_const]
  refine ⟨fun hword => ⟨safe_variableHead ?_, makes_variableHead.endsInNode⟩, fun _ _ => ?_⟩
  · refine State.sees_inMode.2 fun _ => ?_
    rcases hword with hvar | hconst
    · exact .inl (.of_isWord hvar rfl rfl)
    · exact .inr (.of_isWord hconst rfl rfl)
  · exact ⟨trivial, endsInNode_apply _⟩

theorem safe_forStatement (h : s.Sees (Token.IsWordFor .forKw)) : E.Safe forStatement s := by
  rw [forStatement, safe_node, safe_iff_runs]
  simp only [runs_bind]
  refine ⟨h.enter _ _, (safe_eatWord rfl).runs fun each _ _ => ?_⟩
  refine (safe_expect (by decide)).runs fun _ _ _ => runs_forHead.mono fun headed t _ hends => ?_
  rw [runs_seesWord, runs_ite, Bool.and_eq_true]
  refine ⟨fun hin => ?_, fun _ => ?_⟩
  · have hsees : ((t.inMode .operator).labelLast .left).Sees (Token.IsWordFor .inKw) := by
      rw [State.sees_labelLast]
      exact State.sees_inMode.2 fun _ => .of_isWord hin.2 rfl rfl
    rw [← safe_iff_runs]
    exact ⟨hends hin.1, hsees, safe_expression _, safe_expect (by decide), safe_statementIn _,
      trivial⟩
  · rw [← safe_iff_runs]
    simp only [safe_bind, safe_when, safe_report, safe_label, safe_sees, safe_expression,
      safe_statementIn, safe_pure, implies_true, true_and, and_true]
    refine ⟨fun hheaded => ?_, safe_expect (by decide), safe_expect (by decide),
      safe_expect (by decide)⟩
    simp [hends hheaded]

theorem safe_whileStatement (h : s.Sees (Token.IsWordFor .whileKw)) : E.Safe whileStatement s := by
  simp only [whileStatement, safe_nodeOf, safe_bind, safe_takeWord, safe_parenthesized,
    safe_statementIn, and_true]
  exact h.enter _ _

theorem safe_doStatement (h : s.Sees (Token.IsWordFor .doKw)) : E.Safe doStatement s := by
  simp only [doStatement, safe_nodeOf, safe_bind, safe_takeWord, safe_parenthesized,
    safe_statementIn, safe_pure, true_and, and_true]
  exact ⟨h.enter _ _, safe_expectWord rfl, safe_eat (by decide)⟩

theorem safe_withStatement (h : s.Sees (Token.IsWordFor .withKw)) : E.Safe withStatement s := by
  simp only [withStatement, safe_nodeOf, safe_bind, safe_takeWord, safe_parenthesized,
    safe_statementIn, and_true]
  exact h.enter _ _

/-- A `catch` clause is safe at its keyword. -/
theorem safe_catchClause (h : s.Sees (Token.IsWordFor .catchKw)) : E.Safe catchClause s := by
  simp only [catchClause, safe_bind, safe_nodeOf, safe_takeWord, safe_name, safe_typeAscription?,
    safe_bodyBlock, safe_label, after_nodeOf, State.endsInNode_close, true_and, and_true]
  exact ⟨h.enter _ _, safe_expect (by decide), safe_expect (by decide)⟩

@[simp] theorem safe_catchClauses : E.Safe catchClauses s := by
  refine Safe.loop' fun t => ?_
  rw [runs_bind, runs_seesWord, runs_ite]
  refine ⟨fun hcatch => ?_, fun _ => by simp⟩
  have hword : Token.IsWordFor .catchKw (t.place.next .operator).1 := .of_isWord hcatch rfl rfl
  have htoken : (t.inMode .operator).token.kind ≠ .eof := hword.kind_ne_eof
  refine ⟨⟨safe_catchClause (State.sees_inMode.2 fun _ => hword), trivial⟩, fun _ => ?_⟩
  exact State.moves_inMode.1 (moves_bind_left (moves_bind_left (moves_nodeOf_takeWord htoken)))

theorem safe_tryStatement (h : s.Sees (Token.IsWordFor .tryKw)) : E.Safe tryStatement s := by
  simp only [tryStatement, safe_nodeOf, safe_bind, safe_takeWord, safe_bodyBlock, safe_seesWord,
    safe_catchClauses, safe_when, safe_report, implies_true, true_and, and_true]
  exact ⟨h.enter _ _, safe_clause? rfl fun _ => safe_bodyBlock⟩

theorem safe_jumpStatement {keyword kind : Kind} (h : s.Sees (Token.IsWordFor keyword)) :
    E.Safe (jumpStatement keyword kind) s := by
  simp only [jumpStatement, safe_nodeOf, safe_bind, safe_takeWord, safe_look, safe_when, safe_name,
    safe_semicolon, implies_true, and_true]
  exact h.enter _ _

theorem safe_valueStatement {keyword kind : Kind} (h : s.Sees (Token.IsWordFor keyword)) :
    E.Safe (valueStatement keyword kind) s := by
  simp only [valueStatement, safe_nodeOf, safe_bind, safe_takeWord, safe_look, safe_when,
    safe_expression, safe_semicolon, implies_true, and_true]
  exact h.enter _ _

@[simp] theorem safe_labeledStatement : E.Safe labeledStatement s := by
  simp [labeledStatement]

theorem moves_labeledStatement (h : s.place.ahead = .name) :
    s.Moves (E.after labeledStatement s) :=
  moves_nodeOf (Place.rest_ne_nil_of_ahead (by simp [h])) fun t hp _ =>
    moves_bind_left (moves_name (by rw [hp, h]))

/-! ## Statements by their first word -/

@[simp] theorem safe_plainWordStatement : E.Safe plainWordStatement s := by
  rw [plainWordStatement, safe_bind]
  refine ⟨(onlyLooks_declarationWord? _ _).safe, ?_⟩
  rw [after_nextDeclaration?]
  cases hnext : E.val nextDeclaration? s with
  | some keyword =>
    obtain ⟨hkey, hleads⟩ := leadsTo_of_nextDeclaration? hnext
    exact safe_declaration hkey hleads
  | none => simp

theorem makes_plainWordStatement : s.Makes (E.after plainWordStatement s) := by
  rw [plainWordStatement, after_bind, after_nextDeclaration?, ← State.inMode_makes]
  cases E.val nextDeclaration? s with
  | some keyword => exact makes_declaration keyword
  | none =>
    simp only [after_bind, after_ahead, State.inMode_inMode, after_ite]
    split
    · split
      · exact makes_nodeOf _ _
      · exact makes_nodeOf _ _
    · exact makes_nodeOf _ _

theorem moves_plainWordStatement (h : s.place.ahead = .name) :
    s.Moves (E.after plainWordStatement s) := by
  have hstarts : (Rule.expression .comma {}).Starts (s.inMode .operator) := by
    left
    rw [State.inMode_place, h]
    decide
  rw [plainWordStatement, after_bind, after_nextDeclaration?, ← State.moves_inMode]
  cases hnext : E.val nextDeclaration? s with
  | some keyword =>
    obtain ⟨hkey, hleads⟩ := leadsTo_of_nextDeclaration? hnext
    exact moves_declaration hkey hleads
  | none =>
    simp only [after_bind, after_ahead, State.inMode_inMode, after_ite]
    split
    · split
      · exact moves_labeledStatement h
      · exact moves_expressionStatement hstarts
    · exact moves_expressionStatement hstarts

/-- A statement that opens with a word is safe at that word. -/
theorem safe_wordStatement (h : (s.place.next .exprStart).1.kind = .name) :
    E.Safe (wordStatement (State.glimpse (s.place.next .exprStart).1)) (s.inMode .exprStart) := by
  have hword {k : Kind} (hk : Kind.ofWord? (s.place.next .exprStart).1.text = some k) :
      (s.inMode .exprStart).Sees (Token.IsWordFor k) :=
    State.sees_inMode.2 fun _ => .of_ofWord h hk
  unfold wordStatement
  split
  · exact safe_ifStatement (hword ‹_›)
  · exact safe_switchStatement (hword ‹_›)
  · exact safe_forStatement (hword ‹_›)
  · exact safe_whileStatement (hword ‹_›)
  · exact safe_doStatement (hword ‹_›)
  · exact safe_withStatement (hword ‹_›)
  · exact safe_tryStatement (hword ‹_›)
  · exact safe_jumpStatement (hword ‹_›)
  · exact safe_jumpStatement (hword ‹_›)
  · exact safe_valueStatement (hword ‹_›)
  · exact safe_valueStatement (hword ‹_›)
  · exact safe_importStatement (hword ‹_›)
  · exact safe_includeDirective (hword ‹_›)
  · exact safe_packageDeclaration (hword ‹_›)
  · -- a word is the same before an operand and after one
    have hagree : s.place.next .exprStart = s.place.next .operator :=
      Place.next_exprStart_eq (by rw [h]; decide)
    rename_i huse
    rw [hagree] at h huse
    simp only [safe_bind, safe_ahead, val_ahead, after_ahead, State.inMode_place,
      State.inMode_inMode, safe_ite, safe_plainWordStatement, implies_true, true_and, and_true]
    intro hnamespace
    have hnext : Token.IsWordFor .namespaceKw (State.tokenAhead 1 s.place) :=
      .of_isWord hnamespace rfl rfl
    refine safe_useNamespaceDirective (State.sees_inMode.2 fun _ => .of_ofWord h huse) ?_
    exact seesBehind_of_tokenAhead hnext hnext.kind_ne_eof
  · exact safe_reject _
  · exact safe_reject _
  · exact safe_reject _
  · exact safe_reject _
  · exact safe_reject _
  · exact safe_plainWordStatement

theorem makes_wordStatement (g : Glimpse) : s.Makes (E.after (wordStatement g) s) := by
  unfold wordStatement
  split
  · exact makes_nodeOf _ _
  · exact makes_nodeOf _ _
  · exact makes_node _
  · exact makes_nodeOf _ _
  · exact makes_nodeOf _ _
  · exact makes_nodeOf _ _
  · exact makes_nodeOf _ _
  · exact makes_nodeOf _ _
  · exact makes_nodeOf _ _
  · exact makes_nodeOf _ _
  · exact makes_nodeOf _ _
  · exact makes_nodeOf _ _
  · exact makes_nodeOf _ _
  · exact makes_nodeOf _ _
  · rw [after_bind, after_ahead, after_ite, ← State.inMode_makes]
    split
    · exact makes_nodeOf _ _
    · exact makes_plainWordStatement
  · exact makes_reject _
  · exact makes_reject _
  · exact makes_reject _
  · exact makes_reject _
  · exact makes_reject _
  · exact makes_plainWordStatement

/-- A statement that opens with a word takes it. -/
theorem moves_wordStatement (h : (s.place.next .exprStart).1.kind = .name) (g : Glimpse) :
    (s.inMode .exprStart).Moves (E.after (wordStatement g) (s.inMode .exprStart)) := by
  have htoken : (s.inMode .exprStart).token.kind ≠ .eof := by simp [h]
  have hahead : s.place.ahead = .name := Place.ahead_of_exprStart h (by decide)
  have hne : s.place.ahead ≠ .eof := by simp [hahead]
  unfold wordStatement
  split
  · exact moves_nodeOf_takeWord htoken
  · exact moves_nodeOf_takeWord htoken
  · exact moves_node_takeWord htoken
  · exact moves_nodeOf_takeWord htoken
  · exact moves_nodeOf_takeWord htoken
  · exact moves_nodeOf_takeWord htoken
  · exact moves_nodeOf_takeWord htoken
  · exact moves_nodeOf_takeWord htoken
  · exact moves_nodeOf_takeWord htoken
  · exact moves_nodeOf_takeWord htoken
  · exact moves_nodeOf_takeWord htoken
  · exact moves_nodeOf_takeWord htoken
  · exact moves_nodeOf_takeWord htoken
  · exact moves_nodeOf_takeWord htoken
  · rw [after_bind, after_ahead, after_ite, State.moves_inMode, ← State.moves_inMode]
    split
    · exact moves_nodeOf_takeWord hne
    · exact moves_plainWordStatement hahead
  · exact moves_reject hne
  · exact moves_reject hne
  · exact moves_reject hne
  · exact moves_reject hne
  · exact moves_reject hne
  · exact moves_plainWordStatement hahead

/-! ## Statements by their first token -/

@[simp] theorem safe_statementRule : E.Safe statementRule s := by
  simp only [statementRule, safe_bind, safe_look, val_look, after_look, true_and, glimpse_kind]
  split
  · exact safe_block
  · exact safe_leaf (State.hasToken_of_kind ‹_› (by decide))
  · refine ⟨onlyLooks_seesAnnotatedDeclaration.safe, ?_⟩
    simp
  · exact safe_wordStatement ‹_›
  · exact safe_missing _
  · exact safe_missing _
  · exact safe_reject _
  · exact safe_reject _
  · exact safe_reject _
  · exact safe_expressionStatement

theorem makes_statementRule : s.Makes (E.after statementRule s) := by
  simp only [statementRule, after_bind, val_look, after_look, glimpse_kind]
  change (s.inMode .exprStart).Makes _
  split
  · exact makes_braced _
  · exact makes_leaf _
  · rw [after_bind]
    have hbranch (mode : Mode) (b : Bool) : s.Makes
        (E.after (if b then annotated else expressionStatement) (s.inMode mode)) := by
      rw [after_ite]
      split
      · exact State.inMode_makes.1 makes_annotated
      · exact State.inMode_makes.1 makes_expressionStatement
    rcases onlyLooks_seesAnnotatedDeclaration.after_cases (E := E) (s := s.inMode .exprStart)
      with h | h
    · rw [h]
      exact hbranch _ _
    · rw [h]
      exact hbranch _ _
  · exact makes_wordStatement _
  · exact makes_missing _
  · exact makes_missing _
  · exact makes_reject _
  · exact makes_reject _
  · exact makes_reject _
  · exact makes_expressionStatement

/-- Annotations or an expression that opens with a bracket move on. -/
theorem moves_annotated_or {t : State} (h : s.place.ahead = .lBrack) (hp : t.place = s.place) :
    s.Moves (E.after (if E.val seesAnnotatedDeclaration s then annotated
      else expressionStatement) t) := by
  rw [after_ite]
  have key : t.Moves (if E.val seesAnnotatedDeclaration s then E.after annotated t
      else E.after expressionStatement t) := by
    split
    · rename_i hsees
      rw [← onlyLooks_seesAnnotatedDeclaration.val_eq hp] at hsees
      exact moves_annotated hsees
    · refine moves_expressionStatement (.inl ?_)
      rw [hp, h]
      decide
  rwa [State.Moves, hp] at key

/-- Where nothing else is recognised, an expression moves on. -/
theorem starts_of_unrecognised (hne : s.place.ahead ≠ .eof) (hcurly : s.place.ahead ≠ .rCurly)
    (h : ∀ k ∈ [Kind.semicolon, .rParen, .rBrack, .colon], (s.place.next .exprStart).1.kind ≠ k) :
    (Rule.expression .comma {}).Starts s := by
  by_cases hcomma : s.place.ahead = .comma
  · exact .inr ⟨hcomma, rfl, rfl⟩
  left
  have hk (k : Kind) (hk : k ∈ [Kind.semicolon, .rParen, .rBrack, .colon])
      (hafter : k ∉ Code.afterOperand) : s.place.ahead ≠ k :=
    fun he => h k hk (Place.exprStart_of_ahead he hafter)
  simp [operandStops, closers, hcomma, hne, hcurly, hk .semicolon, hk .rParen, hk .rBrack,
    hk .colon, Code.afterOperand]

/-- A statement moves on except before `}` and at the end of the text. -/
theorem moves_statementRule (hne : s.place.ahead ≠ .eof) (hcurly : s.place.ahead ≠ .rCurly) :
    s.Moves (E.after statementRule s) := by
  simp only [statementRule, after_bind, val_look, after_look, glimpse_kind]
  change (s.inMode .exprStart).Moves _
  split
  · exact moves_braced (Place.ahead_of_exprStart ‹_› (by decide))
  · rename_i h
    exact moves_leaf (by simp [h])
  · rename_i h
    have hbrack := Place.ahead_of_exprStart h (by decide)
    rw [after_bind]
    refine moves_annotated_or hbrack ?_
    rcases onlyLooks_seesAnnotatedDeclaration.after_cases (E := E) (s := s.inMode .exprStart)
      with hs | hs <;> rw [hs]
    rfl
  · exact moves_wordStatement ‹_› _
  · exact absurd (Place.ahead_of_exprStart ‹_› (by decide)) hcurly
  · exact absurd (Place.ahead_of_exprStart ‹_› (by decide)) hne
  · exact moves_reject hne
  · exact moves_reject hne
  · exact moves_reject hne
  · refine moves_expressionStatement (starts_of_unrecognised hne hcurly ?_)
    simp_all

/-! ## The rules -/

/-- **Every rule is safe where it may be called.** -/
theorem safe_rule {rule : Rule} (h : rule.Ready s) : E.Safe (Grammar.rule rule) s := by
  cases rule with
  | statement => exact safe_statementRule
  | expression min r => exact safe_expressionRule min r
  | unary => exact safe_unaryRule
  | construction => exact safe_constructionRule h
  | type => exact safe_typeRule
  | element => exact safe_elementRule h

/-- **Every rule makes one node.** -/
theorem makes_rule (rule : Rule) : s.Makes (E.after (Grammar.rule rule) s) := by
  cases rule with
  | statement => exact makes_statementRule
  | expression min r => exact makes_expressionRule min r
  | unary => exact makes_unaryRule
  | construction => exact makes_constructionRule
  | type => exact makes_typeRule
  | element => exact makes_elementRule

/-- **Every rule moves on where it says so.** -/
theorem moves_rule {rule : Rule} (h : rule.Starts s) :
    s.Moves (E.after (Grammar.rule rule) s) := by
  cases rule with
  | statement => exact moves_statementRule h.1 h.2
  | expression min r => exact moves_expressionRule h
  | unary => exact moves_unaryRule h
  | construction => exact moves_constructionRule h.1
  | type => exact h.elim
  | element => exact moves_elementRule h.1

end ActionScript.Setting
