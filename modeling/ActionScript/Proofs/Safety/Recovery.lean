import ActionScript.Proofs.Pieces

/-!
# Names, lists and recovery are safe

The parsers that many rules share, one by one: each is safe wherever it is used, and those that
repetitions rely on move on.
-/

set_option autoImplicit false

namespace ActionScript.Setting

open ActionScript.Parser ActionScript.Grammar

variable [Alphabet] {E : Setting} {s : State}

/-! ## Names -/

@[simp] theorem safe_name (field : Field) (stops : List Kind) : E.Safe (name field stops) s := by
  simp only [name, safe_bind, safe_sees, val_sees, after_sees, safe_ite, safe_rejectUnless,
    safe_label, after_ite, true_and, implies_true, and_true, beq_iff_eq]
  constructor
  · intro h
    refine safe_leaf ?_
    simp [h]
  · split
    · exact (makes_leaf _).endsInNode
    · exact (makes_rejectUnless _ _).endsInNode

theorem moves_name {field : Field} {stops : List Kind} (h : s.place.ahead = .name) :
    s.Moves (E.after (name field stops) s) := by
  have hleaf : (s.inMode .operator).Moves (E.after (leaf .ident) (s.inMode .operator)) :=
    moves_leaf (by simp [h])
  simpa [name, h, State.Moves] using hleaf

theorem takes_name {field : Field} {stops : List Kind} (h : s.place.ahead = .name) :
    (s.inMode .operator).Takes (E.after (name field stops) s) := by
  have hb : (s.place.ahead == .name) = true := by simp [h]
  simp only [name, after_bind, val_sees, after_sees, hb, if_true, after_label]
  intro ha
  simpa using takes_leaf (E := E) (s := s.inMode .operator) .ident (by simpa using ha)

/-- Where something can be seen behind the next token, that token is not the end of the text. -/
theorem ahead_ne_eof_of_tokenAhead (h : (State.tokenAhead 1 s.place).kind ≠ .eof) :
    s.place.ahead ≠ .eof := by
  intro he
  simp [State.tokenAhead, he] at h

/-- What is seen one token ahead comes behind the next token. -/
theorem seesBehind_of_tokenAhead {P : Token → Prop} (h : P (State.tokenAhead 1 s.place))
    (hk : (State.tokenAhead 1 s.place).kind ≠ .eof) : (s.inMode .operator).SeesBehind P := by
  intro _
  have hne := ahead_ne_eof_of_tokenAhead hk
  simp only [State.tokenAhead, Place.next_operator_kind, beq_iff_eq, hne, if_false] at h
  exact h

/-- Two tokens are taken when both have been seen, and that moves on. -/
theorem runs_take_take {f g : Option Field} {Q : State → Prop}
    (h : (State.tokenAhead 1 s.place).kind ≠ .eof) (hq : ∀ t : State, s.Moves t → Q t) :
    E.Runs (.take f) (s.inMode .operator) fun _ t => E.Runs (.take g) t fun _ u => Q u := by
  have hne := ahead_ne_eof_of_tokenAhead h
  have hmoves := State.moves_takeAs (s := s.inMode .operator) E.limits s.place.ahead f hne
  have hnext : (s.inMode .operator).SeesBehind (·.kind ≠ .eof) := seesBehind_of_tokenAhead h h
  exact ⟨fun _ => hne, (State.takes_takeAs _ _ _ _).sees hnext,
    hq _ (hmoves.trans_leads (.takeAs _ _ _ _))⟩

@[simp] theorem safe_nameTail (wildcard : Bool) : E.Safe (nameTail wildcard) s := by
  refine Safe.loop' fun t => ?_
  simp only [runs_bind, runs_sees, runs_ite, runs_ahead, runs_pure, State.inMode_place,
    State.inMode_inMode, glimpse_kind, beq_iff_eq, Bool.and_eq_true, Bool.false_eq_true,
    false_implies, implies_true, and_true]
  intro hdot
  refine ⟨fun hname => runs_take_take (by simp [hname]) fun _ h _ => h, fun _ hstar => ?_⟩
  exact runs_take_take (by simp [hstar]) fun _ _ => trivial

@[simp] theorem safe_qualifiedName (field : Field) (wildcard : Bool) :
    E.Safe (qualifiedName field wildcard) s := by
  simp only [qualifiedName, safe_bind, safe_sees, val_sees, after_sees, safe_ite, safe_nodeOf,
    safe_take, safe_nameTail, safe_rejectUnless, safe_label, after_ite, after_nodeOf,
    State.endsInNode_ite, State.endsInNode_close, endsInNode_rejectUnless, implies_true, and_true,
    true_and, beq_iff_eq]
  exact fun h => State.HasToken.enter (by simp [h]) _ _

/-! ## Lists -/

/-- An item before which a comma may be missing moves on: if it did not, the same token would still
come next. -/
theorem moves_item {first : KindSet} {item : Parser Bool}
    (hmoves : ∀ t : State, first.contains t.place.ahead = true → t.Moves (E.after item t))
    (h : first.contains (E.after item s).place.ahead = true) : s.Moves (E.after item s) := by
  rcases Nat.lt_or_ge s.place.offset (E.after item s).place.offset with hlt | hge
  · exact hlt
  · rw [(E.leads_after item s).place.eq_of_offset_le hge] at h
    exact hmoves s h

/-- A list is safe where its opening bracket stands, if its items are safe and move on before every
token that a missing comma may stand in front of. -/
theorem safe_delimited {b : Brackets} {item : Parser Bool} (hhas : s.HasToken)
    (hopen : (s.inMode .operator).Finds (·.kind = b.opening))
    (hclosing : b.closing ≠ .eof) (hitem : ∀ t, E.Safe item t)
    (hmoves : ∀ t : State, b.first.contains t.place.ahead = true → t.Moves (E.after item t)) :
    E.Safe (delimited b item) s := by
  refine ⟨hopen, hhas, Safe.loop' fun t => ?_, safe_expect hclosing⟩
  simp only [runs_bind, runs_peek, runs_ite, runs_pure, Bool.or_eq_true, beq_iff_eq, not_or,
    Bool.false_eq_true, false_implies, implies_true, true_and, and_imp, Bool.not_eq_true',
    Bool.not_eq_false, forall_const, and_true]
  intro _ hne
  refine ⟨fun _ => ⟨safe_reject _, moves_reject (s := t.inMode .operator) hne⟩,
    fun _ => ⟨hitem _, fun _ => ?_⟩⟩
  -- the item may have moved on or not; a comma behind it does, and so does what follows none
  have hlead := E.leads_after item (t.inMode .operator)
  refine runs_eat (by decide) fun u hu hcomma hstay => ⟨fun h => ?_, fun h hfirst => ?_⟩
  · exact hlead.trans_moves (hcomma (by simpa using h))
  · rw [hstay (by simpa using h)] at hfirst
    have hitem := (moves_item hmoves hfirst).trans_leads hu
    exact (safe_expect (by decide)).runs fun _ v hv =>
      hitem.trans_leads ((State.Leads.inMode u _).trans hv)

theorem moves_delimited {b : Brackets} {item : Parser Bool} (h : s.token.kind ≠ .eof) :
    s.Moves (E.after (delimited b item) s) := by
  unfold delimited
  exact moves_require_take h

/-! ## Recovery -/

/-- Skipping is safe before a token; it takes at least that one. -/
theorem safe_skipStatement (h : (s.inMode .operator).HasToken) : E.Safe skipStatement s := by
  rw [skipStatement, safe_nodeOf]
  refine Safe.loop (fun t => (t.inMode .operator).HasToken) (State.Sees.enter_inMode h _ _) ?_
  intro t ht
  simp only [runs_bind, runs_ite]
  refine runs_eat (by decide) fun u hu hsemi hstay => ⟨fun _ => by simp, fun hne => ?_⟩
  rw [hstay (by simpa using hne), runs_take]
  refine ⟨ht, ?_⟩
  simp only [runs_look, runs_pure]
  intro hon
  have hnext : ((t.inMode .operator).takeAs E.limits t.place.ahead none).place.ahead ≠ .eof := by
    intro he
    simp [he] at hon
  have htoken := State.token_ne_eof_of_takeAs _ (Place.rest_ne_nil_of_ahead hnext)
  exact ⟨State.moves_takeAs _ _ _ htoken, fun _ => hnext⟩

@[simp] theorem safe_semicolon : E.Safe semicolon s := by
  rw [safe_iff_runs, semicolon]
  simp only [runs_bind, runs_when, runs_look, runs_report, Bool.not_eq_true', implies_true,
    and_true]
  refine runs_eat (by decide) fun t ht hfound hstay _ hnone => ?_
  have hne : t.place.ahead ≠ .eof := by
    intro he
    simp [he] at hnone
  exact fun _ => (safe_skipStatement (by simpa using fun _ => hne)).runs fun _ _ _ => trivial

@[simp] theorem safe_statements : E.Safe statements s := by
  refine Safe.loop' fun t => ?_
  simp only [runs_bind, runs_peek, runs_ite, runs_pure, Bool.or_eq_true, beq_iff_eq, not_or,
    Bool.false_eq_true, false_implies, implies_true, true_and, and_imp, forall_const]
  exact fun hcurly hne => ⟨trivial, E.moves .statement (t.inMode .operator) trivial ⟨hne, hcurly⟩⟩

@[simp] theorem safe_braced (kind : Kind) : E.Safe (braced kind) s := by
  simp only [braced, safe_bind, safe_sees, val_sees, after_sees, safe_ite, safe_nodeOf, safe_take,
    safe_statements, safe_missing, implies_true, and_true, true_and, beq_iff_eq]
  exact fun h => ⟨State.HasToken.enter (by simp [h]) _ _, safe_expect (by decide)⟩

theorem makes_braced (kind : Kind) : s.Makes (E.after (braced kind) s) := by
  simp only [braced, after_bind, val_sees, after_sees, after_ite]
  split
  · exact makes_nodeOf (s := s.inMode .operator) kind _
  · exact makes_missing (s := s.inMode .operator) _

@[simp] theorem endsInNode_braced (kind : Kind) : (E.after (braced kind) s).EndsInNode :=
  (makes_braced kind).endsInNode

theorem moves_braced {kind : Kind} (h : s.place.ahead = .lCurly) :
    s.Moves (E.after (braced kind) s) := by
  have hnode : (s.inMode .operator).Moves (E.after (nodeOf kind do
      take none
      statements
      expect .rCurly) (s.inMode .operator)) := moves_nodeOf_take (by simp [h])
  simpa [braced, h] using hnode

@[simp] theorem safe_block : E.Safe block s := safe_braced _

@[simp] theorem endsInNode_block : (E.after block s).EndsInNode := endsInNode_braced _

@[simp] theorem safe_expression (field : Field) : E.Safe (expression field) s :=
  safe_callIn.2 trivial

@[simp] theorem safe_assignment (field : Field) : E.Safe (assignment field) s :=
  safe_callIn.2 trivial

end ActionScript.Setting
