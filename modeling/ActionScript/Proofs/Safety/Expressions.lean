import ActionScript.Grammar.Expressions
import ActionScript.Proofs.Safety.Types

/-!
# Expressions are safe

An operand looks at the next token as it is read before an operand, everything else as it is read
after one.  The chain behind an operand and the operators between operands are repetitions around
the element made last, so their invariant is that one node has been made since the operand began.

* `infixOperator?_cases`: an operator is a word or a sign, and stands there as such.
* `safe_unaryRule`, `safe_expressionRule`, `safe_constructionRule`: the three rules.
* `moves_unaryRule`, `moves_expressionRule`, `moves_constructionRule`: where they move on.
-/

set_option autoImplicit false

namespace ActionScript

/-- A token stands for an operator: it is the word for it, or the sign itself. -/
def Token.StandsFor (op : Kind) (t : Token) : Prop := t.IsWordFor op ∨ t.kind = op

theorem Token.StandsFor.kind_ne_eof {op : Kind} {t : Token} (h : t.StandsFor op)
    (hop : op ≠ .eof) : t.kind ≠ .eof := by
  rcases h with h | h
  · exact h.kind_ne_eof
  · rwa [h]

namespace Setting

open ActionScript.Parser ActionScript.Grammar

variable [Alphabet] {E : Setting} {s : State}

/-! ## Operators -/

omit [Alphabet] in
/-- What is an operator between operands is a word that stands for it, or the sign itself. -/
theorem infixOperator?_cases {r : Restrictions} {t : Token} {op : Kind} {p : Precedence}
    (h : infixOperator? r (State.glimpse t) = some (op, p)) :
    op.precedence? = some p ∧ t.StandsFor op := by
  simp only [infixOperator?, glimpse_kind, glimpse_text, Option.bind_eq_some_iff,
    Option.map_eq_some_iff, Prod.mk.injEq] at h
  obtain ⟨k, hk, q, hq, rfl, rfl⟩ := h
  refine ⟨hq, ?_⟩
  split at hk
  · rename_i hname
    left
    split at hk
    · split at hk
      · cases hk
      · cases hk
        exact .of_ofWord hname ‹_›
    · cases hk
      exact .of_ofWord hname ‹_›
    · cases hk
      exact .of_ofWord hname ‹_›
    · cases hk
      exact .of_ofWord hname ‹_›
    · cases hk
  · right
    split at hk
    · cases hk
    · cases hk
      assumption
  · right
    exact Option.some.inj hk

omit [Alphabet] in
theorem precedence?_ne_eof {op : Kind} {p : Precedence} (h : op.precedence? = some p) :
    op ≠ .eof := by
  rintro rfl
  cases h

/-- No token is read as a keyword, so what stands for one is its word. -/
theorem sees_word {op : Kind} (h : s.Sees (Token.StandsFor op)) (hkey : op.isKeyword = true) :
    s.Sees (Token.IsWordFor op) := by
  intro ha
  rcases h ha with hword | hsign
  · exact hword
  · rw [← hsign, State.token, Place.next_not_keyword] at hkey
    cases hkey

/-- An operator is taken where it stands. -/
theorem safe_takeOperator {op : Kind} (h : s.Sees (Token.StandsFor op)) (hop : op ≠ .eof) :
    E.Safe (takeOperator op) s := by
  simp only [takeOperator, safe_ite, safe_takeWord, safe_take]
  exact ⟨sees_word h, fun _ ha => (h ha).kind_ne_eof hop⟩

theorem moves_takeOperator {op : Kind} (h : s.token.kind ≠ .eof) :
    s.Moves (E.after (takeOperator op) s) := by
  simp only [takeOperator, after_ite, after_takeWord, after_take]
  split
  · exact State.moves_takeAs _ _ _ h
  · exact State.moves_takeAs _ _ _ h

omit [Alphabet] in
theorem begins_takeOperator (op : Kind) : (takeOperator op).Begins := .ite trivial trivial

omit [Alphabet] in
/-- What follows an operand begins with its operator. -/
theorem begins_operation (op : Kind) (p : Precedence) (r : Restrictions) :
    (operation op p r).Begins := by
  unfold operation
  split
  · exact .inl trivial
  · exact .inl trivial
  · exact .inl trivial
  · exact .inl (.ite trivial (begins_takeOperator op))

/-- What follows an operand is safe where its operator stands. -/
theorem safe_operation {op : Kind} {p : Precedence} {r : Restrictions}
    (h : s.Sees (Token.StandsFor op)) (hop : op ≠ .eof) : E.Safe (operation op p r) s := by
  have hhas : s.HasToken := h.mono fun _ ht => ht.kind_ne_eof hop
  have hready (min : Precedence) (r : Restrictions) (t : State) :
    (Rule.expression min r).Ready t := trivial
  unfold operation
  split
  · simpa [hready] using hhas
  · simpa [hready] using hhas
  · simpa [hready] using hhas
  · simp only [safe_bind, safe_ite, safe_takeWord, safe_callIn, hready, safe_pure, and_true,
      beq_iff_eq]
    refine ⟨?_, fun _ => safe_takeOperator h hop⟩
    rintro rfl
    exact sees_word h rfl

theorem moves_operation {op : Kind} {p : Precedence} {r : Restrictions}
    (h : s.token.kind ≠ .eof) : s.Moves (E.after (operation op p r) s) := by
  have htake (kind : Kind) (field : Option Field) := State.moves_takeAs E.limits kind field h
  unfold operation
  split
  · exact moves_bind_left (htake _ _)
  · exact moves_bind_left (htake _ _)
  · exact moves_bind_left (htake _ _)
  · refine moves_bind_left ?_
    rw [after_ite]
    split
    · exact htake _ _
    · exact moves_takeOperator h

/-- An operator with its operands is safe where it stands behind a node, and moves on. -/
theorem safe_infix {r : Restrictions} {op : Kind} {p : Precedence} (hends : s.EndsInNode)
    (h : infixOperator? r (State.glimpse (s.place.next .operator).1) = some (op, p)) :
    E.Safe (wrap (fieldBefore p) (operation op p r)) (s.inMode .operator) ∧
      s.Moves (E.after (wrap (fieldBefore p) (operation op p r)) (s.inMode .operator)) := by
  obtain ⟨hp, hstands⟩ := infixOperator?_cases h
  have hop := precedence?_ne_eof hp
  have hsees : (s.inMode .operator).Sees (Token.StandsFor op) := fun _ => hstands
  have hne := hstands.kind_ne_eof hop
  refine ⟨⟨hends, begins_operation op p r, safe_operation (hsees.enter _ _) hop⟩, ?_⟩
  exact moves_wrap (s := s.inMode .operator) (Place.rest_ne_nil hne) fun t hplace hmode =>
    moves_operation (by rwa [State.token, hplace, hmode])

@[simp] theorem safe_expressionRule (min : Precedence) (r : Restrictions) :
    E.Safe (expressionRule min r) s := by
  -- one node has been made: the first operand, or what operators have made of it
  refine ⟨trivial, Safe.loop (fun t => s.Makes t) (E.makes .unary s) fun t ht => ?_⟩
  simp only [runs_bind, runs_look]
  split
  · simp
  · rename_i op p hop
    rw [runs_ite, runs_bind]
    refine ⟨fun _ => by simp, fun _ => ?_⟩
    obtain ⟨hsafe, hmoves⟩ := safe_infix (E := E) ht.endsInNode hop
    exact ⟨hsafe, trivial, fun _ => ⟨hmoves, makes_wrap (State.makes_inMode.2 ht)⟩⟩

theorem makes_expressionRule (min : Precedence) (r : Restrictions) :
    s.Makes (E.after (expressionRule min r) s) := by
  refine after_loop_induct (fun t => s.Makes t) (E.makes .unary s) (fun _ _ h => h) fun t ht => ?_
  simp only [after_bind, val_look, after_look]
  split
  · exact ht
  · rw [after_ite]
    split
    · exact ht
    · rw [after_bind]
      exact makes_wrap (State.makes_inMode.2 ht)

/-- An expression moves on if its first operand does; if there is none, a comma may do. -/
theorem moves_expressionRule {min : Precedence} {r : Restrictions}
    (h : (Rule.expression min r).Starts s) : s.Moves (E.after (expressionRule min r) s) := by
  rcases Nat.lt_or_ge s.place.offset (E.apply .unary s).place.offset with hlt | hge
  · exact moves_bind_left hlt
  · rcases h with hfirst | ⟨hcomma, rfl, hseq⟩
    · exact moves_bind_left (E.moves .unary s trivial hfirst)
    · have hstay := (E.leads .unary s).place.eq_of_offset_le hge
      refine (E.leads .unary s).trans_moves (moves_loop ?_)
      have hop : infixOperator? r (State.glimpse ((E.apply .unary s).place.next .operator).1) =
          some (.comma, .comma) := by
        simp [infixOperator?, hstay, hcomma, hseq, Kind.precedence?]
      obtain ⟨-, hmoves⟩ := safe_infix (E := E) (E.makes .unary s).endsInNode hop
      simpa [hop] using hmoves

/-! ## Operands -/

omit [Alphabet] in
/-- What can open an expression is not left to others. -/
theorem operandStops_of_expressionFirst {k : Kind} (h : expressionFirst.contains k = true) :
    operandStops.contains k = false := by
  have key : ∀ k ∈ [Kind.name, .number, .string, .lParen, .lBrack, .lCurly, .bang, .tilde, .plus,
      .minus, .plus2, .minus2, .lt, .slash], operandStops.contains k = false := by decide
  exact key k (by simpa [expressionFirst] using h)

theorem moves_assignment {field : Field} (h : operandStops.contains s.place.ahead = false) :
    s.Moves (E.after (assignment field) s) :=
  moves_callIn trivial (.inl h)

/-- Arguments are safe at their parenthesis. -/
theorem safe_arguments (hhas : s.HasToken) (h : (s.inMode .operator).Finds (·.kind = .lParen)) :
    E.Safe arguments s := by
  simp only [arguments, safe_bind, safe_nodeOf, safe_label, after_nodeOf, State.endsInNode_close,
    and_true]
  refine safe_delimited (hhas.enter _ _) (h.enter_inMode _ _) (by decide) ?_ ?_
  · simp
  · intro t ht
    have hstops := operandStops_of_expressionFirst ht
    have hclosers : closers.contains t.place.ahead = false := by
      simp only [operandStops, KindSet.contains_union, Bool.or_eq_false_iff] at hstops
      exact hstops.2
    simp only [after_bind, val_peek, after_peek, hclosers, Bool.false_eq_true, if_false]
    exact moves_assignment (s := t.inMode .operator) hstops

theorem moves_arguments (h : s.token.kind ≠ .eof) : s.Moves (E.after arguments s) :=
  moves_bind_left <| moves_nodeOf (Place.rest_ne_nil h) fun t hp hm =>
    moves_delimited (by rwa [State.token, hp, hm])

/-- Elements are safe at their bracket. -/
theorem safe_elements (hhas : s.HasToken) (h : (s.inMode .operator).Finds (·.kind = .lBrack)) :
    E.Safe elements s := by
  refine ⟨h, hasToken_require hhas, Safe.loop' fun t => ?_, safe_expect (by decide)⟩
  simp only [runs_bind, runs_peek, runs_ite, runs_pure, Bool.or_eq_true, beq_iff_eq, not_or,
    Bool.false_eq_true, false_implies, implies_true, true_and, and_imp, forall_const]
  intro _ hne
  refine ⟨fun _ => ?_, fun _ _ => (safe_assignment _).runs fun _ u hu => ?_⟩
  · exact ⟨by simpa using fun _ => hne, State.moves_takeAs (s := t.inMode .operator) _ _ _ hne⟩
  · exact runs_eat_comma ((State.Leads.inMode t _).trans hu)

theorem moves_elements (h : s.token.kind ≠ .eof) : s.Moves (E.after elements s) := by
  unfold elements
  exact moves_require_take h

@[simp] theorem safe_property? : E.Safe property? s := by
  simp only [property?, safe_bind, safe_peek, val_peek, after_peek, safe_ite, safe_nodeOf,
    safe_label, endsInNode_leaf, safe_assignment, safe_pure, true_and, and_true, implies_true]
  intro hkey
  refine ⟨safe_leaf (State.HasToken.enter ?_ _ _), safe_expect (by decide)⟩
  rw [State.hasToken_inMode]
  rintro _ he
  rw [he] at hkey
  exact absurd hkey (by decide)

theorem moves_property? (h : keyFirst.contains s.place.ahead = true) :
    s.Moves (E.after property? s) := by
  have hne : s.place.ahead ≠ .eof := by
    rintro he
    rw [he] at h
    exact absurd h (by decide)
  simp only [property?, after_bind, val_peek, after_peek, h, if_true, after_pure]
  exact moves_nodeOf (s := s.inMode .operator) (Place.rest_ne_nil_of_ahead hne) fun t hp hm =>
    moves_bind_left (moves_leaf (by simpa [State.token, hp, hm] using hne))

/-- An object literal is safe at its brace. -/
theorem safe_objectLiteral (hhas : s.HasToken) (h : (s.inMode .operator).Finds (·.kind = .lCurly)) :
    E.Safe objectLiteral s := by
  rw [objectLiteral, safe_nodeOf]
  exact safe_delimited (hhas.enter _ _) (h.enter_inMode _ _) (by decide)
    (fun _ => safe_property?) fun _ => moves_property?

omit [Alphabet] in
theorem onlyLooks_closesVector (limit i depth : Nat) : (closesVector limit i depth).OnlyLooks := by
  induction limit generalizing i depth with
  | zero => trivial
  | succ limit ih =>
    refine ⟨trivial, fun g => ?_⟩
    dsimp -zeta only
    extract_lets depth?
    clear_value depth?
    split
    · trivial
    · exact ⟨trivial, fun _ => trivial⟩
    · exact ih _ _

@[simp] theorem safe_opensVector : E.Safe opensVector s := (onlyLooks_closesVector _ _ _).safe

/-- Looking for a vector ends in operator mode. -/
@[simp] theorem after_opensVector : E.after opensVector s = s.inMode .operator :=
  ((onlyLooks_closesVector 32 1 1).2 _).after_inMode

/-- A vector literal is safe at its `<`. -/
theorem safe_vectorBody (h : s.HasToken) : E.Safe vectorBody s := by
  simp only [vectorBody, safe_bind, safe_take, safe_typeIn, safe_sees, val_sees, after_sees,
    safe_ite, safe_missing, true_and, implies_true, and_true, beq_iff_eq]
  refine ⟨h, safe_expectIn (by decide), fun hopen => safe_elements ?_ ?_⟩
  · exact State.hasToken_of_kind hopen (by decide)
  · exact State.finds_inMode hopen

/-- A function is safe at its keyword. -/
theorem safe_functionExpression (h : s.Sees (Token.IsWordFor .functionKw)) :
    E.Safe functionExpression s := by
  simp only [functionExpression, safe_nodeOf, safe_bind, safe_takeWord, safe_sees, safe_when,
    safe_name, safe_signature, safe_ite, safe_block, safe_missing, safe_label, after_ite,
    State.endsInNode_ite, endsInNode_block, endsInNode_missing, implies_true, and_true]
  exact h.enter _ _

/-- A word is taken as what it stands for. -/
theorem safe_wordOperand (hs : s.Sees (·.kind = .name)) :
    E.Safe (wordOperand (State.glimpse s.token)) s := by
  have hword (k : Kind) (hk : Kind.ofWord? s.token.text = some k) : s.Sees (Token.IsWordFor k) :=
    fun ha => .of_ofWord (hs ha) hk
  unfold wordOperand
  split
  · exact safe_wordLeaf (hword _ ‹_›)
  · exact safe_wordLeaf (hword _ ‹_›)
  · exact safe_wordLeaf (hword _ ‹_›)
  · exact safe_wordLeaf (hword _ ‹_›)
  · exact safe_wordLeaf (hword _ ‹_›)
  · exact safe_wordLeaf (hword _ ‹_›)
  · exact safe_functionExpression (hword _ ‹_›)
  · exact safe_leaf (hs.mono fun _ ht => by simp [ht])

theorem makes_wordOperand (g : Glimpse) : s.Makes (E.after (wordOperand g) s) := by
  unfold wordOperand
  split <;> exact makes_nodeOf _ _

theorem moves_wordOperand {g : Glimpse} (h : s.token.kind ≠ .eof) :
    s.Moves (E.after (wordOperand g) s) := by
  unfold wordOperand
  split
  · exact moves_wordLeaf h
  · exact moves_wordLeaf h
  · exact moves_wordLeaf h
  · exact moves_wordLeaf h
  · exact moves_wordLeaf h
  · exact moves_wordLeaf h
  · exact moves_nodeOf_takeWord h
  · exact moves_leaf h

/-- A bracket or a brace is read alike before and after an operand. -/
theorem finds_operator_of_exprStart {k : Kind} (h : (s.place.next .exprStart).1.kind = k)
    (hk : k ∉ Code.beforeOperand) (mode : Mode) :
    ((s.inMode mode).inMode .operator).Finds (·.kind = k) :=
  State.finds_inMode (Place.ahead_of_exprStart h hk)

@[simp] theorem safe_operand : E.Safe operand s := by
  simp only [operand, safe_bind, safe_look, val_look, after_look, true_and, glimpse_kind]
  split
  · exact safe_leaf (State.hasToken_of_kind ‹_› (by decide))
  · exact safe_leaf (State.hasToken_of_kind ‹_› (by decide))
  · exact safe_leaf (State.hasToken_of_kind ‹_› (by decide))
  · exact safe_wordOperand (s := s.inMode .exprStart) (State.sees_inMode.2 fun _ => ‹_›)
  · simp only [safe_nodeOf, safe_bind, safe_take, safe_expression, true_and]
    exact ⟨(State.hasToken_of_kind ‹_› (by decide)).enter _ _, safe_expect (by decide)⟩
  · rw [safe_nodeOf]
    refine safe_elements ((State.hasToken_of_kind ‹_› (by decide)).enter _ _) ?_
    exact (finds_operator_of_exprStart ‹_› (by decide) _).enter_inMode _ _
  · exact safe_objectLiteral (State.hasToken_of_kind ‹_› (by decide))
      (finds_operator_of_exprStart ‹_› (by decide) _)
  · rename_i hlt
    have hne : s.place.ahead ≠ .eof := by
      intro he
      rw [Place.exprStart_eof_iff.2 he] at hlt
      cases hlt
    have hop : (s.inMode .operator).HasToken := by simpa using fun _ => hne
    simp only [safe_bind, safe_opensVector, after_opensVector, State.inMode_inMode, safe_ite,
      safe_nodeOf, safe_call, true_and]
    exact ⟨fun _ => safe_vectorBody (hop.enter _ _), fun _ => hop⟩
  · exact safe_leaf (State.hasToken_of_kind ‹_› (by decide))
  · exact safe_rejectUnless _ _

theorem makes_operand : s.Makes (E.after operand s) := by
  simp only [operand, after_bind, val_look, after_look, glimpse_kind]
  change (s.inMode .exprStart).Makes _
  split
  · exact makes_leaf _
  · exact makes_leaf _
  · exact makes_leaf _
  · exact makes_wordOperand _
  · exact makes_nodeOf _ _
  · exact makes_nodeOf _ _
  · exact makes_nodeOf _ _
  · simp only [after_bind, after_opensVector, State.inMode_inMode, after_ite]
    split
    · exact makes_nodeOf (s := s.inMode .operator) _ _
    · exact E.makes .element (s.inMode .operator)
  · exact makes_leaf _
  · exact makes_rejectUnless _ _

/-- An operand takes every token but those that it leaves to others. -/
theorem moves_operand (h : operandStops.contains s.place.ahead = false) :
    s.Moves (E.after operand s) := by
  have hne : s.place.ahead ≠ .eof := by
    intro he
    rw [he] at h
    exact absurd h (by decide)
  have htoken : (s.inMode .exprStart).token.kind ≠ .eof := fun he =>
    hne (Place.exprStart_eof_iff.1 he)
  simp only [operand, after_bind, val_look, after_look, glimpse_kind]
  change (s.inMode .exprStart).Moves _
  split
  · exact moves_leaf htoken
  · exact moves_leaf htoken
  · exact moves_leaf htoken
  · exact moves_wordOperand htoken
  · exact moves_nodeOf_take htoken
  · exact moves_nodeOf (Place.rest_ne_nil htoken) fun t hp hm =>
      moves_elements (by rwa [State.token, hp, hm])
  · exact moves_nodeOf (Place.rest_ne_nil htoken) fun t hp hm =>
      moves_delimited (by rwa [State.token, hp, hm])
  · simp only [after_bind, after_opensVector, State.inMode_inMode, after_ite, State.moves_inMode,
      after_call]
    have hop : (s.inMode .operator).token.kind ≠ .eof := hne
    split
    · exact State.moves_inMode.1 (moves_nodeOf_take hop)
    · exact State.moves_inMode.1 (E.moves .element _ (fun _ => hop) ⟨hop, hne⟩)
  · exact moves_leaf htoken
  · exact moves_rejectUnless (s := s.inMode .exprStart) h hne

/-! ## Accesses and calls -/

@[simp] theorem safe_propertyName : E.Safe propertyName s := by
  simp only [propertyName, safe_bind, safe_peek, val_peek, after_peek, safe_label, true_and]
  split
  · exact ⟨safe_leaf (State.hasToken_of_kind ‹_› (by decide)), endsInNode_leaf _⟩
  · exact ⟨safe_leaf (State.hasToken_of_kind ‹_› (by decide)), endsInNode_leaf _⟩
  · exact ⟨safe_missing _, endsInNode_missing _⟩

/-- A link is safe behind a node if what it adds is, and moves on if that does. -/
theorem runs_link_of {field : Field} {body : Parser Kind} {goesOn : Bool} (hends : s.EndsInNode)
    (hrest : s.place.rest ≠ []) (hbegins : body.Begins)
    (hsafe : E.Safe body (s.enter E.limits ((s.children.take 1).map (Shape.withField field))))
    (hmoves : ∀ t : State, t.place = s.place → t.mode = s.mode → t.Moves (E.after body t)) :
    E.Runs (do
      wrap field body
      return goesOn) s fun goesOn t => goesOn = true → s.Moves t :=
  ⟨⟨⟨hends, hbegins, hsafe⟩, trivial⟩, fun _ => moves_bind_left (moves_wrap hrest hmoves)⟩

theorem runs_link_take {field : Field} {slot : Option Field} {next : Unit → Parser Kind}
    {goesOn : Bool} (hends : s.EndsInNode) (h : s.token.kind ≠ .eof)
    (hnext : ∀ t, E.Safe (next ()) t) :
    E.Runs (do
      wrap field (.take slot >>= next)
      return goesOn) s fun goesOn t => goesOn = true → s.Moves t := by
  have hhas : s.HasToken := fun _ => h
  exact runs_link_of hends (Place.rest_ne_nil h) (.inl trivial) ⟨hhas.enter _ _, hnext _⟩
    fun t hp hm => moves_bind_left (State.moves_takeAs _ _ _ (by rwa [State.token, hp, hm]))

theorem runs_link_typeArguments (hends : s.EndsInNode) (h : s.token.kind ≠ .eof)
    (hfinds : (s.inMode .typeArgs).Finds (·.kind = .dotLt)) :
    E.Runs (do
      wrap .base do
        typeArguments
        return .genericType
      return true) s fun goesOn t => goesOn = true → s.Moves t := by
  have hhas : s.HasToken := fun _ => h
  obtain ⟨-, hbegins, hsafe⟩ := safe_genericType (E := E) hends hhas hfinds
  exact runs_link_of hends (Place.rest_ne_nil h) hbegins hsafe
    fun t hp hm => moves_bind_left (moves_typeArguments (by rwa [State.token, hp, hm]))

theorem runs_link_arguments (hends : s.EndsInNode) (h : s.token.kind ≠ .eof)
    (hfinds : (s.inMode .operator).Finds (·.kind = .lParen)) :
    E.Runs (do
      wrap .function do
        arguments
        return .callExpr
      return true) s fun goesOn t => goesOn = true → s.Moves t := by
  have hhas : s.HasToken := fun _ => h
  exact runs_link_of hends (Place.rest_ne_nil h) (.inl (.inl trivial))
    ⟨safe_arguments (hhas.enter _ _) (hfinds.enter_inMode _ _), trivial⟩
    fun t hp hm => moves_bind_left (moves_arguments (by rwa [State.token, hp, hm]))

/-- **One link of a chain** is safe behind a node, and moves on if the chain may go on. -/
theorem runs_link (calls : Bool) (hends : s.EndsInNode) :
    E.Runs (link calls) s fun goesOn t => goesOn = true → s.Moves t := by
  have hends' : (s.inMode .operator).EndsInNode := hends
  have hne {k : Kind} (h : s.place.ahead = k) (hk : k ≠ .eof) :
      (s.inMode .operator).token.kind ≠ .eof := by
    subst h
    exact hk
  rw [link, runs_bind, runs_look]
  simp only [glimpse_kind, Place.next_operator_kind]
  split
  · refine runs_link_take hends' (hne ‹_› (by decide)) fun t => ?_
    simp only [safe_bind, safe_sees, val_sees, after_sees, safe_ite, safe_take, safe_expression,
      safe_propertyName, safe_pure, true_and, and_true, implies_true, beq_iff_eq]
    exact fun h => ⟨State.hasToken_of_kind h (by decide), safe_expect (by decide)⟩
  · exact runs_link_take hends' (hne ‹_› (by decide)) fun t => by simp
  · exact runs_link_take hends' (hne ‹_› (by decide)) fun t => by simp
  · rename_i h
    refine runs_link_typeArguments hends' (hne h (by decide)) (State.finds_inMode ?_)
    exact Place.typeArgs_kind_of_ahead h
  · exact runs_link_take hends' (hne ‹_› (by decide)) fun t => by simp
  · rename_i h
    rw [runs_ite]
    refine ⟨fun _ => ?_, fun _ => by simp⟩
    exact runs_link_arguments hends' (hne h (by decide)) (State.finds_inMode h)
  · rename_i h
    rw [runs_ite]
    exact ⟨fun _ => runs_link_take hends' (hne h (by decide)) fun t => by simp, fun _ => by simp⟩
  · rename_i h
    rw [runs_ite]
    exact ⟨fun _ => runs_link_take hends' (hne h (by decide)) fun t => by simp, fun _ => by simp⟩
  · simp

theorem makes_link {calls : Bool} {t : State} (h : s.Makes t) :
    s.Makes (E.after (link calls) t) := by
  have hwrap {field : Field} {body : Parser Kind} {goesOn : Bool} :
      s.Makes (E.after (do
        wrap field body
        return goesOn) (t.inMode .operator)) := by
    rw [after_bind]
    exact makes_wrap (State.makes_inMode.2 h)
  simp only [link, after_bind, after_look, val_look]
  split
  · exact hwrap
  · exact hwrap
  · exact hwrap
  · exact hwrap
  · exact hwrap
  · rw [after_ite]
    split
    · exact hwrap
    · exact h
  · rw [after_ite]
    split
    · exact hwrap
    · exact h
  · rw [after_ite]
    split
    · exact hwrap
    · exact h
  · exact h

/-- A chain is safe behind a node, and makes that node its innermost part. -/
theorem safe_chain {calls : Bool} {t : State} (h : s.Makes t) : E.Safe (chain calls) t :=
  Safe.loop (fun t => s.Makes t) h fun _ ht =>
    ⟨(runs_link calls ht.endsInNode).1, fun hon =>
      ⟨(runs_link calls ht.endsInNode).2 hon, makes_link ht⟩⟩

theorem makes_chain {calls : Bool} {t : State} (h : s.Makes t) :
    s.Makes (E.after (chain calls) t) :=
  after_loop_induct (fun t => s.Makes t) h (fun _ _ ht => ht) fun _ ht => makes_link ht

/-- `new` or another operand, with which a chain begins, is safe. -/
theorem safe_chainHead :
    E.Safe (if (State.glimpse (s.place.next .exprStart).1).isWord "new" then call .construction
      else operand) (s.inMode .exprStart) := by
  simp only [safe_ite, safe_call, safe_operand, implies_true, and_true]
  exact fun h => State.sees_inMode.2 fun _ => .of_isWord h rfl rfl

theorem makes_chainHead (new : Bool) :
    s.Makes (E.after (if new then call .construction else operand) s) := by
  rw [after_ite]
  split
  · exact E.makes .construction s
  · exact makes_operand

theorem moves_chainHead (h : operandStops.contains s.place.ahead = false) :
    s.Moves (E.after (if (State.glimpse (s.place.next .exprStart).1).isWord "new" then
      call .construction else operand) (s.inMode .exprStart)) := by
  rw [after_ite]
  split
  · rename_i hnew
    have hword : Token.IsWordFor .newKw (s.place.next .exprStart).1 := .of_isWord hnew rfl rfl
    exact E.moves .construction (s.inMode .exprStart) (State.sees_inMode.2 fun _ => hword)
      ⟨hword.kind_ne_eof, fun he => hword.kind_ne_eof (Place.exprStart_eof_iff.2 he)⟩
  · exact moves_operand (s := s.inMode .exprStart) h

/-- `new` is safe where its word stands. -/
theorem safe_constructionRule (h : s.Sees (Token.IsWordFor .newKw)) :
    E.Safe constructionRule s := by
  rw [constructionRule, safe_node, safe_bind, safe_bind]
  refine ⟨h.enter _ _, trivial, ?_⟩
  rw [val_look, after_look]
  generalize E.after (takeWord .newKw none) (s.enter E.limits []) = t
  rw [safe_ite]
  refine ⟨fun hlt => ⟨safe_vectorBody ?_, trivial⟩, fun _ => ?_⟩
  · exact State.hasToken_of_kind (by simpa using hlt) (by decide)
  · have hhead := makes_chainHead (E := E) (s := t.inMode .exprStart)
      ((State.glimpse (t.place.next .exprStart).1).isWord "new")
    refine ⟨safe_chainHead, safe_chain hhead, (makes_chain hhead).endsInNode, ?_⟩
    simp only [safe_bind, safe_sees, val_sees, after_sees, safe_when, safe_pure, true_and, and_true,
      beq_iff_eq]
    intro hparen
    exact safe_arguments (State.hasToken_of_kind hparen (by decide))
      (State.finds_inMode hparen)

theorem makes_constructionRule : s.Makes (E.after constructionRule s) := makes_node _

theorem moves_constructionRule (h : s.token.kind ≠ .eof) :
    s.Moves (E.after constructionRule s) := moves_node_takeWord h

/-! ## Leading operators -/

@[simp] theorem safe_chained : E.Safe chained s := by
  simp only [chained, safe_bind, safe_look, val_look, after_look, true_and]
  exact ⟨safe_chainHead, safe_chain (makes_chainHead _)⟩

theorem makes_chained : s.Makes (E.after chained s) := by
  simp only [chained, after_bind, after_look]
  exact makes_chain (State.inMode_makes.1 (makes_chainHead _))

theorem moves_chained (h : operandStops.contains s.place.ahead = false) :
    s.Moves (E.after chained s) := by
  simp only [chained, after_bind, val_look, after_look]
  exact (moves_chainHead h).trans_leads (E.leads_after _ _)

omit [Alphabet] in
/-- Only some operators are taken in front of an operand. -/
theorem leadingOperator?_isOperator {g : Glimpse} {op : Kind} (h : leadingOperator? g = some op) :
    (op.isUnaryOperator || op.isUpdateOperator) = true := by
  unfold leadingOperator? at h
  split at h
  · rw [(Option.filter_eq_some_iff.1 h).2, Bool.true_or]
  · split at h
    · rename_i hop
      rwa [← Option.some.inj h]
    · cases h

omit [Alphabet] in
/-- What is an operator in front of an operand stands there as such. -/
theorem leadingOperator?_cases {t : Token} {op : Kind}
    (h : leadingOperator? (State.glimpse t) = some op) : op ≠ .eof ∧ t.StandsFor op := by
  simp only [leadingOperator?, glimpse_kind, glimpse_text] at h
  split at h
  · rename_i hname
    obtain ⟨hword, hop⟩ := Option.filter_eq_some_iff.1 h
    refine ⟨?_, .inl (.of_ofWord hname hword)⟩
    rintro rfl
    cases hop
  · split at h
    · rename_i hop
      cases h
      refine ⟨?_, .inr rfl⟩
      intro he
      rw [he] at hop
      cases hop
    · cases h

@[simp] theorem safe_unaryRule : E.Safe unaryRule s := by
  simp only [unaryRule, safe_bind, safe_look, val_look, after_look, true_and]
  split
  · exact safe_chained
  · rename_i op h
    obtain ⟨hop, hstands⟩ := leadingOperator?_cases h
    have hsees : (s.inMode .exprStart).Sees (Token.StandsFor op) := fun _ => hstands
    simp only [safe_nodeOf, safe_bind, safe_callIn]
    exact ⟨safe_takeOperator (hsees.enter _ _) hop, trivial⟩

theorem makes_unaryRule : s.Makes (E.after unaryRule s) := by
  simp only [unaryRule, after_bind, val_look, after_look]
  split
  · exact State.inMode_makes.1 makes_chained
  · exact State.inMode_makes.1 (makes_nodeOf _ _)

theorem moves_unaryRule (h : operandStops.contains s.place.ahead = false) :
    s.Moves (E.after unaryRule s) := by
  simp only [unaryRule, after_bind, val_look, after_look]
  split
  · exact State.moves_inMode.1 (moves_chained h)
  · rename_i op hlead
    obtain ⟨hop, hstands⟩ := leadingOperator?_cases hlead
    have htoken : (s.inMode .exprStart).token.kind ≠ .eof := hstands.kind_ne_eof hop
    refine State.moves_inMode.1 (moves_nodeOf (Place.rest_ne_nil htoken) fun t hp hm => ?_)
    exact moves_bind_left (moves_takeOperator (by rwa [State.token, hp, hm]))

end Setting

end ActionScript
