import ActionScript.Grammar.Signatures
import ActionScript.Proofs.Safety.Recovery

/-!
# Types and signatures are safe

Inside type arguments tokens are read in a mode of their own; `Place.typeArgs_kind_of_ahead` says
that `.<` is the same there as elsewhere.
-/

set_option autoImplicit false

namespace ActionScript

/-- `.<` is read alike inside type arguments and outside of them. -/
theorem Place.typeArgs_kind_of_ahead [Alphabet] {p : Place} (h : p.ahead = .dotLt) :
    (p.next .typeArgs).1.kind = .dotLt := by
  rcases p.next_typeArgs_agree with heq | ⟨-, hmem⟩
  · rw [heq]
    exact h
  · rw [next_operator_kind, h] at hmem
    exact absurd hmem (by decide)

namespace Setting

open ActionScript.Parser ActionScript.Grammar

variable [Alphabet] {E : Setting} {s : State}

/-! ## Types -/

@[simp] theorem safe_typeIn (field : Field) : E.Safe (typeIn field) s := safe_callIn.2 trivial

/-- A type ascription is safe at its colon. -/
theorem safe_typeAscription {field : Field} (h : s.place.ahead = .colon) :
    E.Safe (typeAscription field) (s.inMode .operator) := by
  have htoken : (s.inMode .operator).HasToken := by simp [h]
  simp only [typeAscription, safe_bind, safe_require, safe_nodeOf, safe_take, safe_typeIn,
    safe_label, after_nodeOf, State.endsInNode_close, and_true]
  exact ⟨fun _ => h, (hasToken_require htoken).enter _ _⟩

@[simp] theorem safe_typeAscription? (field : Field) : E.Safe (typeAscription? field) s := by
  simp only [typeAscription?, safe_bind, safe_sees, val_sees, after_sees, safe_when, beq_iff_eq,
    true_and]
  exact safe_typeAscription

/-- Type arguments are safe where `.<` stands. -/
theorem safe_typeArguments (hhas : s.HasToken) (h : (s.inMode .typeArgs).Finds (·.kind = .dotLt)) :
    E.Safe typeArguments s := by
  simp only [typeArguments, safe_bind, safe_require, safe_nodeOf, safe_take, safe_label,
    after_nodeOf, State.endsInNode_close, safe_pure, and_true]
  refine ⟨h, (hasToken_require hhas).enter _ _, Safe.loop' fun t => ?_, safe_expectIn (by decide)⟩
  rw [runs_bind]
  refine (safe_typeIn .type).runs fun _ u hu => ?_
  simp only [runs_bind, runs_seesIn, runs_ite, runs_take, runs_pure, beq_iff_eq, Bool.false_eq_true,
    false_implies, implies_true, and_true, forall_const]
  intro hcomma
  have hne : (u.inMode .typeArgs).token.kind ≠ .eof := by simp [hcomma]
  exact ⟨fun _ => hne, hu.trans_moves (State.moves_takeAs (s := u.inMode .typeArgs) _ _ _ hne)⟩

theorem moves_typeArguments (h : s.token.kind ≠ .eof) : s.Moves (E.after typeArguments s) :=
  moves_bind_right <| moves_bind_left <|
    moves_nodeOf_take (s := E.after (require .typeArgs .dotLt) s) h

omit [Alphabet] in
/-- They begin with their own node, behind the requirement. -/
theorem begins_typeArguments : typeArguments.Begins := .inr ⟨trivial, fun _ => .inl trivial⟩

/-- So is the node that they make of what stands before them. -/
theorem safe_genericType (hends : s.EndsInNode) (hhas : s.HasToken)
    (h : (s.inMode .typeArgs).Finds (·.kind = .dotLt)) :
    E.Safe (wrap .base do
      typeArguments
      return .genericType) s :=
  ⟨hends, .inl begins_typeArguments, safe_typeArguments (hhas.enter _ _)
    (h.enter_inMode _ _), trivial⟩

/-- A dotted name is safe where it begins. -/
theorem safe_typeName (h : s.HasToken) : E.Safe typeName s := by
  simp only [typeName, safe_nodeOf, safe_bind, safe_take]
  refine ⟨h.enter _ _, Safe.loop' fun t => ?_⟩
  simp only [runs_bind, runs_seesIn, runs_ite, runs_ahead, runs_pure, State.inMode_place,
    State.inMode_inMode, glimpse_kind, beq_iff_eq, Bool.false_eq_true, false_implies, implies_true,
    and_true]
  exact fun _ hname => runs_take_take (by simp [hname]) fun _ h _ => h

theorem makes_typeName : s.Makes (E.after typeName s) := makes_nodeOf _ _

@[simp] theorem safe_typeRule : E.Safe typeRule s := by
  simp only [typeRule, safe_bind, safe_look, val_look, after_look, true_and, glimpse_kind]
  split
  · rename_i h
    exact safe_leaf fun _ => by simp [h]
  · rename_i h
    have hhas : (s.inMode .typeArgs).HasToken := fun _ => by simp [h]
    simp only [safe_ite, safe_bind, safe_seesIn, val_seesIn, after_seesIn, safe_when, true_and,
      beq_iff_eq]
    refine ⟨fun hword => safe_wordLeaf ?_, fun _ => ⟨safe_typeName hhas, fun hdotLt => ?_⟩⟩
    · exact fun _ => .of_isWord hword rfl rfl
    · refine safe_genericType ?_ ?_ ?_
      · exact State.endsInNode_inMode.2 makes_typeName.endsInNode
      · intro _
        simp [hdotLt]
      · exact State.finds_inMode hdotLt
  · exact safe_missing _

theorem makes_typeRule : s.Makes (E.after typeRule s) := by
  simp only [typeRule, after_bind, val_look, after_look, glimpse_kind]
  split
  · exact makes_leaf (s := s.inMode .typeArgs) _
  · simp only [after_ite, after_bind, after_seesIn, val_seesIn, after_when]
    have hname : s.Makes (E.after typeName (s.inMode .typeArgs)) :=
      State.inMode_makes.1 makes_typeName
    split
    · exact makes_wordLeaf (s := s.inMode .typeArgs) _ _
    · split
      · exact makes_wrap (State.makes_inMode.2 hname)
      · exact State.makes_inMode.2 hname
  · exact makes_missing (s := s.inMode .typeArgs) _

@[simp] theorem safe_typeList : E.Safe typeList s := by
  refine Safe.loop' fun t => ?_
  rw [runs_bind]
  exact (safe_typeIn .type).runs fun _ u hu => runs_eat_comma hu

/-! ## Signatures -/

/-- `= value`, if it comes next. -/
theorem safe_defaultValue {value : Parser Unit} (hv : ∀ t, E.Safe value t) :
    E.Safe (do
      when (← sees .eq) do
        take none
        value) s := by
  simp only [safe_bind, safe_sees, val_sees, after_sees, safe_when, safe_take, true_and, beq_iff_eq]
  exact fun h => ⟨by simp [h], hv _⟩

@[simp] theorem safe_parameter : E.Safe parameter s := by
  simp only [parameter, safe_bind, safe_nodeOf, safe_name, safe_typeAscription?, safe_label,
    after_nodeOf, State.endsInNode_close, true_and, and_true]
  exact safe_defaultValue fun _ => safe_assignment .value

theorem moves_parameter (h : s.place.ahead = .name) : s.Moves (E.after parameter s) := by
  have hnode : s.Moves (E.after (nodeOf .param do
      name .name []
      typeAscription? .type
      when (← sees .eq) do
        take none
        assignment .value) s) :=
    moves_nodeOf (Place.rest_ne_nil_of_ahead (by simp [h])) fun t hp _ =>
      moves_bind_left (moves_name (by rw [hp, h]))
  exact moves_bind_left hnode

/-- A rest parameter is safe at its dots. -/
theorem safe_restParameter (h : s.HasToken) : E.Safe restParameter s := by
  simp only [restParameter, safe_bind, safe_nodeOf, safe_take, safe_name, safe_typeAscription?,
    safe_label, after_nodeOf, State.endsInNode_close, and_true]
  exact h.enter _ _

theorem moves_restParameter (h : s.token.kind ≠ .eof) : s.Moves (E.after restParameter s) :=
  moves_bind_left (moves_nodeOf_take h)

/-- A parameter list is safe at its parenthesis. -/
theorem safe_parameterList (h : s.HasToken) : E.Safe parameterList s := by
  simp only [parameterList, safe_bind, safe_nodeOf, safe_take, safe_label, after_nodeOf,
    State.endsInNode_close, and_true]
  refine ⟨h.enter _ _, Safe.loop' fun t => ?_, safe_expect (by decide)⟩
  simp only [runs_bind, runs_peek]
  split
  · rename_i hdots
    rw [runs_bind]
    refine ⟨safe_restParameter (by simp [hdots]), ?_⟩
    have hmoves : t.Moves _ :=
      moves_restParameter (E := E) (s := t.inMode .operator) (by simp [hdots])
    exact (safe_eat (by decide)).runs fun _ u hu _ => hmoves.trans_leads hu
  · rename_i hname
    rw [runs_bind]
    refine ⟨safe_parameter, ?_⟩
    have hmoves : t.Moves _ := moves_parameter (E := E) (s := t.inMode .operator) hname
    exact (safe_eat (by decide)).runs fun _ u hu _ => hmoves.trans_leads hu
  · simp

@[simp] theorem safe_signature : E.Safe signature s := by
  simp only [signature, safe_bind, safe_sees, val_sees, after_sees, safe_ite, safe_missing,
    safe_label, endsInNode_missing, safe_typeAscription?, true_and, and_true, implies_true,
    beq_iff_eq]
  exact fun h => safe_parameterList (by simp [h])

end Setting

end ActionScript
