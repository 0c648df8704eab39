import ActionScript.Proofs.Branching
import ActionScript.Proofs.Semicolons.Marks

/-!
# Statements and the token behind them

The next token behind a statement is taken as it was seen, since the statements around it look at
code.  Statements inside an expression stand in the block of a function, and that ends with its
brace or at the end of the text.  So behind an expression no statement waits any more, and what
stands around an interpolation may read on as markup.

* `Setting.Stops`: expressions keep the stops settled, statements leave them pending at most.
* `Setting.Closing`: a parser ends with a semicolon, or where one may be left out.
* `Setting.stops_atDepth`, `State.settled_run`: **each stop of a parse has its token**, or stands
  where code is at its end.
-/

set_option autoImplicit false

namespace ActionScript

open ActionScript.Parser ActionScript.Grammar

instance : Kind.Special Setting.stopKinds := ⟨by decide⟩

instance : Kind.Special forKinds := ⟨by decide⟩

variable [Alphabet]

/-- The open node ends with a semicolon, or a statement may end here without one. -/
def State.Closed (s : State) : Prop :=
  Shape.endInSemicolon s.children.reverse = true ∨ s.mode.isCode = true ∧ s.place.EndsStatement

namespace Setting

/-- The rules keep the stops: no expression leaves one waiting. -/
structure Stops (E : Setting) : Prop where
  settled : ∀ rule s, rule ≠ .statement → E.Carries State.Settled State.Settled (.call rule) s
  pending : ∀ rule s, E.Carries State.Pending State.Pending (.call rule) s

variable {E : Setting} {s : State} {α β : Type}

/-! ## What ends a statement -/

/-- Behind the parser, if no semicolon is missed, a statement may end. -/
def Closing (E : Setting) (p : Parser α) : Prop :=
  ∀ s, (E.after p s).Unmissed → (E.after p s).Closed

theorem Closing.bind {p : Parser β} {f : β → Parser α} (h : ∀ value, E.Closing (f value)) :
    E.Closing (p >>= f) := fun _ ht => h _ _ ht

/-- A semicolon that is missed is reported. -/
theorem not_unmissed_report {t : State} (h : (s.report (.expected .semicolon)).Leads t) :
    ¬t.Unmissed := by
  intro ht
  obtain ⟨ha, hreports⟩ := h.unmissed ht
  rw [State.report_aborted] at ha
  refine hreports ⟨.syntactic (.expected .semicolon), s.token.span⟩ ?_ rfl
  simp [State.report, ha]

/-- The parser closes if the node that it is the inside of needs a semicolon. -/
def Ending (E : Setting) (p : Parser Kind) : Prop :=
  ∀ s, (E.after p s).Unmissed →
    Shape.needsSemicolon (E.val p s) (E.after p s).children.reverse = true → (E.after p s).Closed

theorem Ending.bind {p : Parser β} {f : β → Parser Kind} (h : ∀ value, E.Ending (f value)) :
    E.Ending (p >>= f) := fun _ ht => h _ _ ht

theorem Closing.ending {p : Parser Unit} (h : E.Closing p) {kind : Kind} :
    E.Ending (p >>= fun _ => pure kind) := fun _ ht _ => h _ ht

theorem Ending.of_not_mem {p : Parser Unit} {kind : Kind} (h : kind ∉ Kind.terminated) :
    E.Ending (p >>= fun _ => pure kind) := by
  intro s _ hneeds
  rw [val_bind, val_pure] at hneeds
  simp [Shape.needsSemicolon, h] at hneeds

theorem closing_semicolon : E.Closing semicolon := by
  intro s ht
  rw [semicolon, after_bind, val_eat] at ht ⊢
  cases hfound : (s.place.ahead == .semicolon) with
  | true =>
    left
    simp [eat, Shape.endInSemicolon, Shape.isToken, beq_iff_eq.1 hfound]
  | false =>
    have heat : E.after (eat .semicolon) s = s.inMode .operator := by simp [eat, hfound]
    rw [hfound, heat] at ht
    rw [heat]
    simp only [Bool.not_false, after_when, if_true, after_bind, val_look, after_look] at ht ⊢
    split at ht
    · rw [after_report] at ht
      refine absurd ht (not_unmissed_report (s := (s.inMode .operator).inMode .operator) ?_)
      split
      · exact E.leads_after _ _
      · exact .refl _
    · rename_i hends
      rw [if_neg hends]
      right
      rw [Bool.not_eq_true, Bool.not_eq_false', Bool.or_eq_true, Bool.or_eq_true, or_assoc] at hends
      simpa [Place.EndsStatement, State.glimpse] using hends

/-- The block of a function ends with its brace, or at the end of the text. -/
theorem ahead_statements : (E.after statements s).place.ahead = .rCurly ∨
    (E.after statements s).place.ahead = .eof := by
  refine (Runs.loop (E := E) (s := s) (Q := fun t => t.place.ahead = .rCurly ∨ t.place.ahead = .eof)
    (fun _ => True) trivial fun t _ => ?_).2
  rw [runs_bind, runs_peek, runs_ite]
  refine ⟨fun hends => ?_, fun hne => ?_⟩
  · rw [runs_pure]
    exact ⟨fun h => (by cases h), fun _ => by simpa using hends⟩
  · rw [Bool.not_eq_true, Bool.or_eq_false_iff, beq_eq_false_iff_ne, beq_eq_false_iff_ne] at hne
    exact ⟨⟨trivial, trivial⟩,
      fun _ => ⟨E.moves .statement (t.inMode .operator) trivial ⟨hne.2, hne.1⟩,
      trivial⟩, fun h => (by cases h)⟩

namespace Stops

variable (hE : E.Stops)
include hE

/-! ## Expressions -/

theorem carries_settled {p : Parser α} (hp : p.Avoids stopKinds False True) :
    E.Carries State.Settled State.Settled p s :=
  carries_of_avoids (phase_settled True) (fun rule s h => hE.settled rule s fun hr => h hr) hp

theorem carries_pending {p : Parser α} (hp : p.Avoids stopKinds True False) :
    E.Carries State.Pending State.Pending p s :=
  carries_of_avoids phase_pending (fun rule s _ => hE.pending rule s) hp

/-- Statements up to a brace or the end of the text, and the brace. -/
theorem carries_statements : E.Carries State.Settled State.Settled (do
    statements
    expect .rCurly) s := by
  have hstatements : E.Carries State.Settled State.Pending statements s :=
    (carries_pending hE (by simp [statements])).mono (fun _ h => .inl h) fun _ _ h => h
  refine .bind hstatements ?_
  have hahead := ahead_statements (E := E) (s := s)
  generalize E.after statements s = t at hahead ⊢
  rw [expect, expectIn, seesIn]
  have hlook : E.Carries State.Pending State.Pending (look .operator) t :=
    .of_eq rfl fun _ h => h.of_place rfl fun _ => rfl
  refine .bind (.bind (hlook.bind (.of_eq rfl fun _ h => h)) ?_) (.of_eq rfl fun _ h => h)
  split
  · exact .bind (carries_take (fun _ h => h) none) (.of_eq rfl fun _ h => h)
  · rename_i hcurly
    have heof : t.place.ahead = .eof := hahead.resolve_left fun h => hcurly (by simpa using h)
    exact (carries_settled hE (by simp)).mono (fun _ h => h.settled heof) fun _ _ h => h

theorem carries_block : E.Carries State.Settled State.Settled block s := by
  rw [block, braced]
  refine .bind (carries_settled hE (by simp)) ?_
  split
  · exact .nodeOf (phase_settled True).isLocal (phase_settled True).isLocal
      (.bind (carries_take (fun _ h => .inl h) none) (carries_statements hE)) (by decide)
  · exact carries_settled hE (by simp)

theorem carries_functionExpression :
    E.Carries State.Settled State.Settled functionExpression s := by
  rw [functionExpression]
  refine .nodeOf (phase_settled True).isLocal (phase_settled True).isLocal ?_ (by decide)
  refine .bind (carries_settled hE (by simp)) (.bind (carries_settled hE (by simp)) (.bind
    (carries_settled hE (by simp)) (.bind (carries_settled hE (by simp)) (.bind
      (carries_settled hE (by simp)) (.bind ?_ (carries_settled hE (by simp)))))))
  split
  · exact carries_block hE
  · exact carries_settled hE (by simp)

theorem carries_wordOperand (g : Glimpse) :
    E.Carries State.Settled State.Settled (wordOperand g) s := by
  unfold wordOperand
  split
  case h_7 => exact carries_functionExpression hE
  all_goals exact carries_settled hE (by simp +decide)

theorem carries_operand : E.Carries State.Settled State.Settled operand s := by
  refine .bind (carries_settled hE (by simp)) ?_
  split
  case h_4 => exact carries_wordOperand hE _
  all_goals exact carries_settled hE (by simp +decide)

/-- An operand, or what `new` constructs. -/
theorem carries_constructed (c : Prop) [Decidable c] : E.Carries State.Settled State.Settled
    (if c then call .construction else operand) s := by
  split
  · exact hE.settled _ _ (by decide)
  · exact carries_operand hE

theorem carries_constructionRule : E.Carries State.Settled State.Settled constructionRule s := by
  have hkind : constructionRule.Closes fun kind => kind ∉ stopKinds := by
    simp +decide [constructionRule]
  rw [constructionRule] at hkind ⊢
  refine .node (phase_settled True).isLocal (phase_settled True).isLocal ?_ (hkind.val E _)
  refine .bind (carries_settled hE (by simp)) (.bind (carries_settled hE (by simp)) ?_)
  split
  · exact carries_settled hE (by simp)
  · exact .bind (carries_constructed hE _) (carries_settled hE (by simp +decide))

theorem carries_unaryRule : E.Carries State.Settled State.Settled unaryRule s := by
  refine .bind (carries_settled hE (by simp)) ?_
  split
  · refine .bind (carries_settled hE (by simp)) (.bind (carries_constructed hE _) ?_)
    exact carries_settled hE (by simp +decide)
  · refine carries_settled hE ?_
    simp +decide [takeOperator, Kind.ite_mem]

/-- The first token of an element is read as code, so it settles what is pending. -/
theorem carries_startTag : E.Carries State.Pending State.Settled startTag s := by
  have hrest : startTag.Avoids stopKinds False True := avoids_startTag (by decide) trivial
  rw [startTag] at hrest ⊢
  obtain ⟨⟨hbody, hkind⟩, hlabel⟩ := hrest
  refine .bind (.node phase_pending.isLocal (phase_settled True).isLocal ?_ (hkind.val E _))
    (carries_settled hE (hlabel _))
  exact .bind (carries_take (fun _ h => h) none) (carries_settled hE (hbody.2 ()))

theorem carries_elementRule : E.Carries State.Pending State.Settled elementRule s := by
  rw [elementRule]
  refine .nodeOf phase_pending.isLocal (phase_settled True).isLocal (.bind (carries_startTag hE)
    (carries_settled hE ?_)) (by decide)
  simp +decide

/-! ## Statements with a semicolon -/

omit hE in
/-- **A statement that closes may be left without a semicolon.** -/
theorem carries_made {body : Parser (Kind × α)}
    (hbody : E.Carries State.Pending State.Pending body (s.enter E.limits []))
    (hfor : (E.val body (s.enter E.limits [])).1 ∉ forKinds)
    (hclosed : (E.after body (s.enter E.limits [])).Unmissed →
      Shape.needsSemicolon (E.val body (s.enter E.limits [])).1
        (E.after body (s.enter E.limits [])).children.reverse = true →
      (E.after body (s.enter E.limits [])).Closed) :
    E.Carries State.Pending State.Pending (.node body) s := by
  intro hsafe ht
  rw [after_node] at ht ⊢
  refine hbody.close phase_pending.isLocal (by simp [State.marks]) hfor hsafe
    ht.of_close fun ms hms => ?_
  replace ht := hclosed ht.of_close
  generalize (E.val body (s.enter E.limits [])).1 = kind at *
  generalize E.after body (s.enter E.limits []) = t at *
  refine State.Pending.of_place (s := t) ?_ rfl id
  rw [Shape.stopAfter, Shape.isUnended]
  split
  · rename_i hunended
    rw [Bool.false_and, Bool.not_false, Bool.and_true, Bool.and_eq_true,
      Bool.not_eq_true'] at hunended
    obtain ⟨hneeds, hends⟩ := hunended
    rcases ht hneeds with hend | ⟨hcode, hplace⟩
    · rw [hends] at hend
      cases hend
    · have hawaits : Mark.Each t.Awaits ms := hms.elim (fun h => h.mono fun _ => .inl) fun h => h.2
      refine .inr
        ⟨hcode, Mark.each_append.2 ⟨hawaits.mono fun ts hts => ?_, .inr ⟨rfl, hplace⟩, trivial⟩⟩
      rwa [Mark.tokens, Mark.tokens, List.append_nil]
  · rwa [List.append_nil]

theorem carries_statement {kind : Kind} {body : Parser Unit}
    (hbody : body.Avoids stopKinds True False)
    (hkind : kind ∉ forKinds) (hclosing : E.Closing body) :
    E.Carries State.Pending State.Pending (nodeOf kind body) s :=
  carries_made (.bind (carries_pending hE hbody) (.of_eq rfl fun _ h => h)) hkind
    fun ht _ => hclosing _ ht

theorem carries_expressionStatement : E.Carries State.Pending State.Pending expressionStatement s :=
  carries_statement hE (by simp) (by decide) (.bind fun _ => closing_semicolon)

theorem carries_valueStatement {keyword kind : Kind} (hkind : kind ∉ forKinds) :
    E.Carries State.Pending State.Pending (valueStatement keyword kind) s :=
  carries_statement hE (by simp) hkind
    (.bind fun _ => .bind fun _ => .bind fun _ => closing_semicolon)

theorem carries_jumpStatement {keyword kind : Kind} (hkind : kind ∉ forKinds) :
    E.Carries State.Pending State.Pending (jumpStatement keyword kind) s :=
  carries_statement hE (by simp) hkind
    (.bind fun _ => .bind fun _ => .bind fun _ => closing_semicolon)

theorem carries_importStatement : E.Carries State.Pending State.Pending importStatement s :=
  carries_statement hE (by simp) (by decide) (.bind fun _ => .bind fun _ => closing_semicolon)

theorem carries_includeDirective : E.Carries State.Pending State.Pending includeDirective s :=
  carries_statement hE (by simp +decide) (by decide)
    (.bind fun _ => .bind fun _ => .bind fun _ => .bind fun _ => closing_semicolon)

theorem carries_useNamespaceDirective :
    E.Carries State.Pending State.Pending useNamespaceDirective s :=
  carries_statement hE (by simp) (by decide)
    (.bind fun _ => .bind fun _ => .bind fun _ => closing_semicolon)

/-! ## Declarations -/

omit hE in
theorem ending_functionBody : E.Ending (functionBody >>= fun _ => pure .functionDecl) := by
  intro s ht hneeds
  rw [after_bind, after_pure] at ht hneeds ⊢
  rw [val_bind, val_pure] at hneeds
  simp only [functionBody, after_bind, val_sees, after_sees, after_ite, beq_iff_eq] at ht hneeds ⊢
  generalize E.after signature _ = u at *
  split at ht
  · rename_i hcurly
    obtain ⟨kind, kids, hmakes⟩ := makes_braced (E := E) (s := u.inMode .operator) .block
    rw [if_pos hcurly, after_label, block, State.labelLast_children _ _ hmakes] at hneeds
    simp [Shape.needsSemicolon, Shape.withField] at hneeds
  · rename_i hcurly
    rw [if_neg hcurly]
    exact closing_semicolon _ ht

omit hE in
/-- **A declaration closes if it needs a semicolon.** -/
theorem ending_declarationBody (keyword : Kind) : E.Ending (declarationBody keyword) := by
  have hvariable (keyword : Kind) : E.Closing (variableBody keyword) :=
    .bind fun _ => .bind fun _ => closing_semicolon
  have hnamespace : E.Closing namespaceBody :=
    .bind fun _ => .bind fun _ => .bind fun _ => .bind fun _ => closing_semicolon
  unfold declarationBody
  refine .bind fun _ => ?_
  split
  case h_1 => exact .of_not_mem (by decide)
  case h_2 => exact .of_not_mem (by decide)
  case h_3 => exact ending_functionBody
  case h_4 => exact (hvariable _).ending
  case h_5 => exact hnamespace.ending
  case h_6 => exact (hvariable _).ending

theorem carries_declaration (keyword : Kind) :
    E.Carries State.Pending State.Pending (declaration keyword) s := by
  rw [declaration]
  refine carries_made
    (.bind (carries_pending hE (avoids_declarationBody (by decide) trivial keyword))
    (.of_eq rfl fun _ h => h)) ?_ (ending_declarationBody keyword _)
  exact (not_mem_declarationBody (by decide) keyword).val E _

theorem carries_annotated : E.Carries State.Pending State.Pending annotated s := by
  have hfor : annotated.Closes fun kind => kind ∉ forKinds := not_mem_annotated (by decide)
  rw [annotated] at hfor ⊢
  refine carries_made
    (.bind (carries_pending hE (by simp)) (.bind (carries_pending hE (by simp)) ?_))
    (hfor.val E _) ?_
  · split
    · exact .bind (carries_pending hE (avoids_declarationBody (by decide) trivial _))
        (.of_eq rfl fun _ h => h)
    · exact carries_pending hE (by simp)
  · rw [after_bind, after_bind, val_bind, val_bind]
    split
    · rw [after_bind, val_bind, after_pure, val_pure]
      exact ending_declarationBody _ _
    · intro _ hneeds
      cases hneeds

/-! ## The head of a `for` -/

/-- Variables in the head of a `for` need no semicolon: no stop stands behind them. -/
theorem exists_variableHead (hsafe : E.Safe variableHead s)
    (ht : (E.after variableHead s).Unmissed) :
    ∃ kind kids, (E.after variableHead s).children = .node kind none kids :: s.children ∧
      (kind = .variableDecl ∨ kind = .constantDecl) ∧
      ∀ ms, s.Pending ms →
        (E.after variableHead s).Pending (ms ++ (Shape.node kind none kids).marks) := by
  have hkind : variableHead.Closes fun kind => kind = .variableDecl ∨ kind = .constantDecl := by
    simp +decide [variableHead]
  rw [variableHead] at hsafe ht hkind ⊢
  rw [after_node] at ht ⊢
  have hbody := carries_pending hE (s := s.enter E.limits []) (p := do
    let isConst ← seesWord "const"
    takeWord (if isConst then .constKw else .varKw) none
    declarators { noIn := true, noSequence := true }
    return (if isConst then Kind.constantDecl else .variableDecl, ())) (by simp)
  obtain ⟨added, hadded, hcarries⟩ := hbody.inside phase_pending.isLocal hsafe ht.of_close
  replace hkind := hkind.val E (s.enter E.limits [])
  rw [State.marks, List.reverse_nil, Shape.marksIn_nil, List.nil_append] at hadded
  generalize E.val _ (s.enter E.limits []) = made at *
  generalize E.after _ (s.enter E.limits []) = t at *
  refine ⟨_, _, rfl, hkind, fun ms hms => ?_⟩
  have hfor : forKinds.contains made.1 = false := by
    rcases hkind with h | h <;> rw [h] <;> rfl
  rw [Shape.marks_node, hfor, hadded]
  exact (hcarries ms hms).of_place rfl id

end Stops

end Setting

end ActionScript
