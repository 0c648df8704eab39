import ActionScript.Proofs.Order.Routines

/-!
# Expressions and elements are orderly

Signatures, expressions and XML elements take no closing brace but those that they end with.  Where
an operand is missing, a brace is left to others; where one is read, it has been seen to be
something else.
-/

set_option autoImplicit false

namespace ActionScript.Setting

open ActionScript.Parser ActionScript.Grammar

variable [Alphabet] {E : Setting} {q : Prop} {l : Bool} {s : State} {α β : Type}

/-! ## Signatures -/

/-- `= value`, if it comes next. -/
theorem orders_defaultValue {value : Parser Unit} (hv : ∀ t, E.Orders q l value t) :
    E.Orders q l (do
      when (← sees .eq) do
        take none
        value) s := by
  simp only [orders_bind, orders_sees, val_sees, after_sees, orders_when, true_and, beq_iff_eq]
  exact fun h => ⟨fun _ => State.sees_ne_of_kind h (by decide), hv _⟩

@[simp] theorem orders_parameter : E.Orders q l parameter s := by
  simp only [parameter, orders_bind, orders_label, and_true]
  rw [orders_nodeOf (by decide)]
  exact ⟨orders_name _ _, orders_typeAscription? _, orders_defaultValue fun _ =>
    orders_assignment .value⟩

theorem orders_restParameter (h : s.Sees (·.kind ≠ .rCurly)) : E.Orders q l restParameter s := by
  simp only [restParameter, orders_bind, orders_label, and_true]
  rw [orders_nodeOf (by decide)]
  exact ⟨fun _ => h.enter _ _, orders_name _ _, orders_typeAscription? _⟩

theorem orders_parameterList (h : s.Sees (·.kind ≠ .rCurly)) : E.Orders q l parameterList s := by
  simp only [parameterList, orders_bind, orders_label, and_true]
  rw [orders_nodeOf (by decide)]
  refine ⟨fun _ => h.enter _ _, fun t => ⟨orders_peek, ?_⟩, orders_expect fun _ => by decide⟩
  rw [val_peek, after_peek]
  dsimp only
  split
  · exact ⟨orders_restParameter (State.sees_ne_of_kind ‹_› (by decide)), orders_eat (by decide)⟩
  · exact ⟨orders_parameter, orders_eat (by decide)⟩
  · exact orders_pure false

@[simp] theorem orders_signature : E.Orders q l signature s := by
  simp only [signature, orders_bind, orders_sees, val_sees, after_sees, orders_ite, orders_missing,
    orders_label, orders_typeAscription?, true_and, and_true, implies_true, beq_iff_eq]
  exact fun h => orders_parameterList (State.sees_ne_of_kind h (by decide))

/-! ## Operators -/

theorem sees_ne_of_standsFor {op : Kind} (h : s.Sees (Token.StandsFor op)) (hop : op ≠ .rCurly) :
    s.Sees (·.kind ≠ .rCurly) := by
  refine h.mono fun t ht => ?_
  rcases ht with hword | hsign
  · rw [hword.1]
    decide
  · rwa [hsign]

theorem orders_takeOperator {op : Kind} (h : s.Sees (Token.StandsFor op)) (hop : op ≠ .rCurly) :
    E.Orders q l (takeOperator op) s := by
  simp only [takeOperator, orders_ite, orders_takeWord, orders_take]
  exact ⟨fun _ _ => hop, fun _ _ => sees_ne_of_standsFor h hop⟩

theorem isCommon_operation (op : Kind) (p : Precedence) (r : Restrictions) (t : State) :
    (E.val (operation op p r) t).isCommon = true := by
  unfold operation
  split
  · rfl
  · cases hop : op == .eq <;> simp <;> rfl
  · rfl
  · cases hop : op == .asKw <;> simp <;> rfl

theorem orders_operation {op : Kind} {p : Precedence} {r : Restrictions}
    (h : s.Sees (Token.StandsFor op)) (hop : op ≠ .rCurly) : E.Orders q l (operation op p r) s := by
  have htake (field : Option Field) : E.Orders q l (.take field) s :=
    fun _ => sees_ne_of_standsFor h hop
  have hcall (field : Field) (min : Precedence) (r : Restrictions) (t : State) :
      E.Orders q l (callIn field (.expression min r)) t := orders_callIn.2 trivial
  unfold operation
  split
  · exact ⟨htake _, hcall _ _ _ _, orders_pure _⟩
  · exact ⟨htake _, hcall _ _ _ _, orders_pure _⟩
  · exact ⟨htake _, hcall _ _ _ _, orders_expect fun _ => by decide, hcall _ _ _ _, orders_pure _⟩
  · refine ⟨orders_ite.2 ⟨fun _ => ?_, fun _ => orders_takeOperator h hop⟩, hcall _ _ _ _,
      orders_pure _⟩
    exact orders_takeWord.2 fun _ => by decide

@[simp] theorem orders_expressionRule (min : Precedence) (r : Restrictions) :
    E.Orders q true (expressionRule min r) s := by
  refine ⟨trivial, fun t => ⟨trivial, ?_⟩⟩
  rw [val_look, after_look]
  dsimp only
  split
  · exact orders_pure false
  · rename_i op p hop
    obtain ⟨hp, hstands⟩ := infixOperator?_cases hop
    have hcurly : op ≠ .rCurly := by
      rintro rfl
      cases hp
    have hsees : (t.inMode .operator).Sees (Token.StandsFor op) := fun _ => hstands
    refine orders_ite.2
      ⟨fun _ => orders_pure false, fun _ => ⟨orders_wrap (isCommon_operation op p r) ?_,
      orders_pure true⟩⟩
    exact fun children => orders_operation (hsees.enter _ _) hcurly

/-! ## Operands -/

theorem orders_arguments (h : s.Sees (·.kind ≠ .rCurly)) : E.Orders q l arguments s := by
  simp only [arguments, orders_bind, orders_label, and_true]
  rw [orders_nodeOf (by decide)]
  refine orders_delimited (h.enter _ _) (fun _ => by decide) fun t => ?_
  simp

theorem orders_elements (h : s.Sees (·.kind ≠ .rCurly)) : E.Orders q l elements s := by
  refine ⟨trivial, fun _ => sees_require h, fun t => ?_, orders_expect fun _ => by decide⟩
  simp only [orders_bind, orders_peek, val_peek, after_peek, orders_ite, orders_take, orders_pure,
    orders_assignment, true_and, and_true, implies_true, beq_iff_eq]
  exact fun _ => ⟨fun hcomma _ => State.sees_ne_of_kind hcomma (by decide),
    fun _ _ => orders_eat (by decide)⟩

@[simp] theorem orders_property? : E.Orders q l property? s := by
  simp only [property?, orders_bind, orders_peek, val_peek, after_peek, orders_ite,
    orders_pure, and_true, true_and, implies_true]
  intro hkey
  rw [orders_nodeOf (by decide)]
  refine ⟨orders_leaf (by split <;> decide) ?_, trivial, orders_expect fun _ => by decide,
    orders_assignment _⟩
  refine State.Sees.enter (State.sees_ne_of_kind rfl ?_) _ _
  rintro hcurly
  rw [Place.next_operator_kind] at hcurly
  rw [hcurly] at hkey
  exact absurd hkey (by decide)

/-- A token that is read as `<` before an operand is no brace behind one. -/
theorem sees_ne_of_exprStart {k : Kind} (h : (s.place.next .exprStart).1.kind = k)
    (hk : k ≠ .rCurly)
    (mode : Mode) : ((s.inMode mode).inMode .operator).Sees (·.kind ≠ .rCurly) := by
  refine State.sees_ne_of_kind rfl fun hcurly => hk ?_
  rw [← h]
  exact Place.exprStart_of_ahead hcurly (by decide)

theorem orders_vectorBody (h : s.Sees (·.kind ≠ .rCurly)) : E.Orders q l vectorBody s := by
  simp only [vectorBody, orders_bind, orders_take, orders_typeIn, orders_sees, val_sees, after_sees,
    orders_ite, orders_missing, true_and, implies_true, and_true, beq_iff_eq]
  exact ⟨fun _ => h, orders_expectIn _ fun _ => by decide,
    fun hbrack => orders_elements (State.sees_ne_of_kind hbrack (by decide))⟩

@[simp] theorem orders_propertyName : E.Orders q l propertyName s := by
  simp only [propertyName, orders_bind, orders_peek, val_peek, after_peek, orders_label,
    true_and, and_true]
  split
  · exact orders_leaf (by decide) (State.sees_ne_of_kind ‹_› (by decide))
  · exact orders_leaf (by decide) (State.sees_ne_of_kind ‹_› (by decide))
  · exact orders_missing _

section
variable (hE : E.Ordered q)
include hE

/-- Properties in braces. -/
theorem orders_objectLiteral (h : s.Sees (·.kind ≠ .rCurly)) : E.Orders q l objectLiteral s := by
  rw [objectLiteral]
  refine orders_closed hE (do
      require .operator .lCurly
      take none
      loop (listStep ⟨.lCurly, .rCurly, .expectedProperty, keyFirst⟩ property?))
    .operator (by decide) ?_ ?_ ?_ fun _ k hk => (by cases hk)
  · exact orders_delimited (h.enter _ _) (fun hl => by cases hl) fun _ => orders_property?
  · exact ⟨trivial, fun _ => sees_require (h.enter _ _), fun _ => orders_listStep fun _ =>
      orders_property?⟩
  · simp only [delimited_eq, expect, after_bind, after_pure]

theorem orders_functionExpression : E.Orders q l functionExpression s := by
  rw [functionExpression, orders_nodeOf (by decide)]
  simp [orders_block hE]

theorem orders_wordOperand {g : Glimpse} (h : s.Sees (·.kind ≠ .rCurly)) :
    E.Orders q l (wordOperand g) s := by
  unfold wordOperand
  split
  · exact orders_wordLeaf (by decide) (by decide)
  · exact orders_wordLeaf (by decide) (by decide)
  · exact orders_wordLeaf (by decide) (by decide)
  · exact orders_wordLeaf (by decide) (by decide)
  · exact orders_wordLeaf (by decide) (by decide)
  · exact orders_wordLeaf (by decide) (by decide)
  · exact orders_functionExpression hE
  · exact orders_leaf (by decide) h

theorem orders_operand : E.Orders q l operand s := by
  simp only [operand, orders_bind, orders_look, val_look, after_look, true_and, glimpse_kind]
  have hsees {k : Kind} (h : (s.place.next .exprStart).1.kind = k) (hk : k ≠ .rCurly) :
      (s.inMode .exprStart).Sees (·.kind ≠ .rCurly) := State.sees_ne_of_kind h hk
  split
  · exact orders_leaf (by decide) (hsees ‹_› (by decide))
  · exact orders_leaf (by decide) (hsees ‹_› (by decide))
  · exact orders_leaf (by decide) (hsees ‹_› (by decide))
  · exact orders_wordOperand hE (hsees ‹_› (by decide))
  · rw [orders_nodeOf (by decide)]
    exact ⟨fun _ => (hsees ‹_› (by decide)).enter _ _, orders_expression _,
      orders_expect fun _ => by decide⟩
  · rw [orders_nodeOf (by decide)]
    exact orders_elements ((hsees ‹_› (by decide)).enter _ _)
  · exact orders_objectLiteral hE (hsees ‹_› (by decide))
  · rename_i hlt
    have hop := sees_ne_of_exprStart hlt (by decide) .exprStart
    simp only [orders_bind, after_opensVector, orders_ite, orders_call]
    refine ⟨orders_of_onlyLooks (onlyLooks_closesVector 32 1 1), fun _ => ?_, fun _ => hop⟩
    rw [orders_nodeOf (by decide)]
    exact orders_vectorBody (hop.enter _ _)
  · exact orders_leaf_error fun _ _ => hsees ‹_› (by decide)
  · refine orders_rejectUnless fun _ => ?_
    decide

/-! ## Accesses and calls -/

omit hE in
theorem isCommon_val_bind {p : Parser β} {next : β → Parser Kind}
    (h : ∀ b t, (E.val (next b) t).isCommon = true) (t : State) :
    (E.val (p >>= next) t).isCommon = true :=
  h _ _

omit hE in
/-- A link that begins with the token that was seen. -/
theorem orders_link_take {field : Field} {slot : Option Field} {next : Unit → Parser Kind}
    {goesOn : Bool}
    (h : s.Sees (·.kind ≠ .rCurly)) (hkind : ∀ t, (E.val (next ()) t).isCommon = true)
    (hnext : ∀ t, E.Orders q true (next ()) t) :
    E.Orders q true (do
      wrap field (.take slot >>= next)
      return goesOn) s :=
  ⟨orders_wrap (fun _ => hkind _) fun _ => ⟨fun _ => h.enter _ _, hnext _⟩, orders_pure goesOn⟩

omit hE in
/-- One link of a chain. -/
theorem orders_link (calls : Bool) : E.Orders q true (link calls) s := by
  have hsees {k : Kind} (h : s.place.ahead = k) (hk : k ≠ .rCurly) :
      (s.inMode .operator).Sees (·.kind ≠ .rCurly) := State.sees_ne_of_kind h hk
  rw [link, orders_bind, val_look, after_look]
  refine ⟨trivial, ?_⟩
  simp only [glimpse_kind, Place.next_operator_kind]
  split
  · refine orders_link_take (hsees ‹_› (by decide)) (fun t => ?_) fun t => ?_
    · simp only [val_bind, val_ite, val_pure]
      split <;> rfl
    · simp only [orders_bind, orders_sees, val_sees, after_sees, orders_ite, orders_take,
        orders_expression, orders_propertyName, orders_pure, true_and, and_true,
        implies_true, beq_iff_eq]
      exact fun hparen => ⟨fun _ => State.sees_ne_of_kind hparen (by decide),
        orders_expect fun _ => by decide⟩
  · exact orders_link_take (hsees ‹_› (by decide)) (isCommon_val_bind fun _ _ => rfl) fun _ => by
      simp
  · exact orders_link_take (hsees ‹_› (by decide)) (isCommon_val_bind fun _ _ => rfl) fun _ => by
      simp
  · exact ⟨orders_genericType (hsees ‹_› (by decide)), orders_pure true⟩
  · exact orders_link_take (hsees ‹_› (by decide))
      (isCommon_val_bind fun _ => isCommon_val_bind fun _ _ => rfl) fun _ => by simp
  · rename_i hparen
    refine orders_ite.2
      ⟨fun _ => ⟨orders_wrap (isCommon_val_bind fun _ _ => rfl) fun _ => ?_, orders_pure true⟩,
        fun _ => orders_pure false⟩
    exact ⟨orders_arguments ((hsees hparen (by decide)).enter _ _), orders_pure _⟩
  · rename_i hplus
    refine orders_ite.2 ⟨fun _ => ?_, fun _ => orders_pure false⟩
    exact orders_link_take (hsees hplus (by decide)) (fun _ => rfl) fun _ => orders_pure _
  · rename_i hminus
    refine orders_ite.2 ⟨fun _ => ?_, fun _ => orders_pure false⟩
    exact orders_link_take (hsees hminus (by decide)) (fun _ => rfl) fun _ => orders_pure _
  · exact orders_pure false

omit hE in
theorem orders_chain (calls : Bool) : E.Orders q true (chain calls) s := fun _ => orders_link calls

/-- `new` or another operand, with which a chain begins. -/
theorem orders_chainHead (new : Bool) :
    E.Orders q l (if new then call .construction else operand) s :=
  orders_ite.2 ⟨fun _ => trivial, fun _ => orders_operand hE⟩

theorem orders_constructionRule : E.Orders q true constructionRule s := by
  rw [constructionRule, orders_node]
  · refine ⟨orders_takeWord.2 fun _ => by decide, trivial, ?_⟩
    rw [val_look, after_look]
    generalize E.after (takeWord .newKw none) (s.enter E.limits []) = t
    refine orders_ite.2 ⟨fun hlt => ⟨orders_vectorBody ?_, orders_pure _⟩, fun _ => ?_⟩
    · exact State.sees_ne_of_kind (by simpa using hlt) (by decide)
    · refine ⟨orders_chainHead hE _, orders_chain false, trivial, ?_⟩
      simp only [orders_bind, orders_sees, val_sees, after_sees, orders_when, orders_pure, true_and,
        and_true, beq_iff_eq]
      exact fun hparen => orders_arguments (State.sees_ne_of_kind hparen (by decide))
  · simp only [val_bind, val_ite, val_pure]
    split <;> rfl

/-! ## Leading operators -/

omit [Alphabet] in
omit hE in
theorem leadingOperator?_ne_rCurly {g : Glimpse} {op : Kind} (h : leadingOperator? g = some op) :
    op ≠ .rCurly := by
  rintro rfl
  cases leadingOperator?_isOperator h

theorem orders_chained : E.Orders q true chained s :=
  ⟨trivial, orders_chainHead hE _, orders_chain true⟩

theorem orders_unaryRule : E.Orders q true unaryRule s := by
  simp only [unaryRule, orders_bind, orders_look, val_look, after_look, true_and]
  split
  · exact orders_chained hE
  · rename_i op h
    obtain ⟨hop, hstands⟩ := leadingOperator?_cases h
    have hsees : (s.inMode .exprStart).Sees (Token.StandsFor op) := fun _ => hstands
    rw [orders_nodeOf (by split <;> decide)]
    refine ⟨orders_takeOperator (hsees.enter _ _) (leadingOperator?_ne_rCurly h),
      orders_callIn.2 trivial⟩

/-! ## XML elements -/

/-- An expression in braces; the closing one is read as in a tag. -/
theorem orders_interpolation {field : Field} (h : s.Sees (·.kind ≠ .rCurly)) :
    E.Orders q l (interpolation field) s := by
  simp only [interpolation, orders_bind, orders_label, and_true]
  refine orders_closed hE (do take none; expression .expression) .xmlTag (by decide) ?_ ?_ ?_
    fun _ k hk => (by cases hk)
  · exact ⟨orders_take_lax none, orders_expression _, orders_expectIn _ fun hl => (by cases hl),
      orders_pure _⟩
  · exact ⟨fun _ => h.enter _ _, orders_expression _⟩
  · simp only [after_bind, after_pure]

theorem orders_tagName : E.Orders q l tagName s := by
  simp only [tagName, orders_bind, orders_look, val_look, after_look, true_and, glimpse_kind]
  split
  · exact ⟨fun _ => State.sees_ne_of_kind ‹_› (by decide), orders_pure _⟩
  · exact ⟨orders_interpolation hE (State.sees_ne_of_kind ‹_› (by decide)), orders_pure _⟩
  · exact ⟨orders_missing _, orders_pure _⟩

theorem orders_tagName? : E.Orders q l tagName? s := by
  simp [tagName?, orders_tagName hE]

theorem orders_tagAttribute (h : s.Sees (·.kind ≠ .rCurly)) : E.Orders q l tagAttribute s := by
  simp only [tagAttribute, orders_bind, orders_label, and_true]
  rw [orders_nodeOf (by decide)]
  simp only [orders_bind, orders_take, orders_when, orders_look, val_look, after_look,
    glimpse_kind, true_and]
  refine ⟨fun _ => h.enter _ _, orders_expectIn _ fun _ => (by decide), fun _ => ?_⟩
  split
  · exact fun _ => State.sees_ne_of_kind ‹_› (by decide)
  · exact orders_interpolation hE (State.sees_ne_of_kind ‹_› (by decide))
  · exact orders_missing _

theorem orders_attributes : E.Orders q l attributes s := by
  intro t
  simp only [orders_bind, orders_look, val_look, after_look, glimpse_kind, true_and]
  split
  · exact ⟨orders_tagAttribute hE (State.sees_ne_of_kind ‹_› (by decide)), orders_pure _⟩
  · exact ⟨orders_interpolation hE (State.sees_ne_of_kind ‹_› (by decide)), orders_pure _⟩
  · exact orders_pure _

theorem orders_startTag (h : s.Sees (·.kind ≠ .rCurly)) : E.Orders q l startTag s := by
  simp only [startTag, orders_bind, orders_label, orders_pure, and_true]
  rw [orders_node]
  · simp only [orders_bind, orders_take, orders_seesIn, val_seesIn, after_seesIn, orders_ite,
      orders_pure, and_true, true_and, beq_iff_eq]
    refine ⟨fun _ => h.enter _ _, orders_tagName? hE, orders_attributes hE, fun hclose _ => ?_,
      fun _ => ?_⟩
    · exact State.sees_ne_of_kind hclose (by decide)
    · exact orders_expectIn _ fun _ => by decide
  · simp only [val_bind, val_ite, val_pure]
    split <;> rfl

theorem orders_content : E.Orders q l content s := by
  intro t
  simp only [orders_bind, orders_look, val_look, after_look, glimpse_kind, true_and]
  split
  · exact ⟨fun _ => State.sees_ne_of_kind ‹_› (by decide), orders_pure _⟩
  · exact ⟨fun _ => State.sees_ne_of_kind ‹_› (by decide), orders_pure _⟩
  · exact ⟨fun _ => State.sees_ne_of_kind ‹_› (by decide), orders_pure _⟩
  · exact ⟨fun _ => State.sees_ne_of_kind ‹_› (by decide), orders_pure _⟩
  · exact ⟨orders_callIn.2 (State.sees_ne_of_kind ‹_› (by decide)), orders_pure _⟩
  · exact ⟨orders_interpolation hE (State.sees_ne_of_kind ‹_› (by decide)), orders_pure _⟩
  · exact orders_pure _

omit hE in
@[simp] theorem orders_checkName (opening closing : Option Text) :
    E.Orders q l (checkName opening closing) s := by
  unfold checkName
  split <;> simp

theorem orders_endTag (opening : Option Text) : E.Orders q l (endTag opening) s := by
  simp only [endTag, orders_bind, orders_seesIn, val_seesIn, after_seesIn, orders_ite, orders_label,
    orders_report, implies_true, and_true, true_and, beq_iff_eq]
  intro hclose
  rw [orders_nodeOf (by decide)]
  simp only [orders_bind, orders_take, orders_checkName, orders_tagName? hE, orders_pure,
    true_and, and_true]
  exact ⟨fun _ => (State.sees_ne_of_kind hclose (by decide)).enter _ _,
    orders_expectIn _ fun _ => by decide⟩

theorem orders_elementRule (h : s.Sees (·.kind ≠ .rCurly)) : E.Orders q true elementRule s := by
  rw [elementRule, orders_nodeOf (by decide)]
  rw [orders_bind]
  refine ⟨orders_startTag hE (h.enter _ _), ?_⟩
  split
  exact orders_when.2 fun _ => ⟨orders_content hE, orders_endTag hE _⟩

end

end ActionScript.Setting
