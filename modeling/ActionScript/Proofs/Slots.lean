import ActionScript.Proofs.Credit
import ActionScript.View.Schema

/-!
# What a node's slots hold

A question to a node is answered by what stands in one of its slots.  Of a run without a report it
is seen from the text of a parser what it puts into the slots of the open node, and so whether each
node that it makes can answer what is asked of its kind.

* `Part`: what a child shows of itself; `Question.MetBy`: the parts hold an answer.
* `Parser.Flow`: what holds behind a parser, by what its run makes of the parts gathered so far;
  repetitions by an invariant.
* `Parser.Checks`: every node that a parser makes can answer.
* `Setting.flow_after`, `Setting.answered_after`: **quiet runs do as their parsers promise**, if the
  rules do.
-/

set_option autoImplicit false

namespace ActionScript

/-! ## Parts -/

/-- What a child shows to the node around it: its slot, and its kind if it is a node. -/
structure Part where
  kind? : Option Kind
  field : Option Field
  deriving DecidableEq

namespace Part

/-- The part of a token. -/
def token (field : Option Field) : Part := ⟨none, field⟩

/-- The part of a node. -/
def node (kind : Kind) (field : Option Field) : Part := ⟨some kind, field⟩

/-- Puts a part into a slot. -/
def withField (f : Field) (p : Part) : Part := { p with field := some f }

/-- Puts the last part into a slot.  Parts are listed with the last one first, as children are. -/
def labelLast (f : Field) : List Part → List Part
  | [] => []
  | p :: ps => p.withField f :: ps

/-- The kind of the first node in a slot. -/
def nodeIn? (f : Field) : List Part → Option Kind
  | [] => none
  | p :: ps => (nodeIn? f ps).or (if p.field = some f then p.kind? else none)

/-- Is there a token in a slot? -/
def tokenIn (f : Field) (ps : List Part) : Bool :=
  ps.any fun p => p.kind?.isNone && p.field == some f

/-- Is there anything in a slot? -/
def elementIn (f : Field) (ps : List Part) : Bool := ps.any fun p => p.field == some f

@[simp] theorem withField_node (f : Field) (kind : Kind) (field : Option Field) :
    (node kind field).withField f = node kind (some f) := rfl
@[simp] theorem labelLast_cons (f : Field) (p : Part) (ps : List Part) :
    labelLast f (p :: ps) = p.withField f :: ps := rfl
@[simp] theorem nodeIn?_nil (f : Field) : nodeIn? f [] = none := rfl
@[simp] theorem nodeIn?_node (f : Field) (kind : Kind) (field : Option Field) (ps : List Part) :
    nodeIn? f (node kind field :: ps) =
      (nodeIn? f ps).or (if field = some f then some kind else none) := rfl
@[simp] theorem nodeIn?_token (f : Field) (field : Option Field) (ps : List Part) :
    nodeIn? f (token field :: ps) = nodeIn? f ps := by
  have hnone : (if (token field).field = some f then (token field).kind? else none) = none := by
    split <;> rfl
  rw [nodeIn?, hnone, Option.or_none]
/-- A part in front of all others is the first one in its slot. -/
theorem nodeIn?_concat (f : Field) (ps : List Part) (p : Part) :
    nodeIn? f (ps ++ [p]) = (if p.field = some f then p.kind? else none).or (nodeIn? f ps) := by
  induction ps with
  | nil => simp [nodeIn?]
  | cons q ps ih => rw [List.cons_append, nodeIn?, ih, Option.or_assoc, nodeIn?]
@[simp] theorem tokenIn_node (f : Field) (kind : Kind) (field : Option Field) (ps : List Part) :
    tokenIn f (node kind field :: ps) = tokenIn f ps := rfl
@[simp] theorem tokenIn_token (f : Field) (field : Option Field) (ps : List Part) :
    tokenIn f (token field :: ps) = (field == some f || tokenIn f ps) := rfl
@[simp] theorem elementIn_node (f : Field) (kind : Kind) (field : Option Field) (ps : List Part) :
    elementIn f (node kind field :: ps) = (field == some f || elementIn f ps) := rfl
@[simp] theorem elementIn_token (f : Field) (field : Option Field) (ps : List Part) :
    elementIn f (token field :: ps) = (field == some f || elementIn f ps) := rfl

end Part

/-! ## Questions -/

/-- The slots that a node of the kind may leave empty. -/
def View.optional : Kind → List Field
  | .packageDecl | .metadataArg | .xmlStartTag => [.name]
  | .namespaceDecl | .returnStmt | .throwStmt => [.value]
  | .classDecl => [.superclass, .interfaces]
  | .interfaceDecl => [.superclass]
  | .functionDecl => [.accessor, .returnType, .body]
  | .param | .variableDeclarator => [.type, .value]
  | .restParam | .catchClause => [.type]
  | .ifStmt => [.alternative]
  | .forStmt => [.initializer, .condition, .update]
  | .tryStmt => [.finalizer]
  | .breakStmt | .continueStmt => [.label]
  | .newExpr => [.arguments]
  | .functionExpr => [.name, .returnType]
  | _ => []

namespace Question

/-- The slot in which one answer is looked for. -/
def slot? : Question → Option Field
  | .node field _ | .token field | .element field => some field
  | _ => none

/-- Do the parts hold an answer? -/
def MetBy (parts : List Part) : Question → Prop
  | .node field role => ∃ kind, Part.nodeIn? field parts = some kind ∧ role.admits kind = true
  | .token field => Part.tokenIn field parts = true
  | .element field => Part.elementIn field parts = true
  | _ => True

@[simp] theorem metBy_node {parts : List Part} {field : Field} {role : Role} :
    (Question.node field role).MetBy parts ↔
      ∃ kind, Part.nodeIn? field parts = some kind ∧ role.admits kind = true := Iff.rfl
@[simp] theorem metBy_token {parts : List Part} {field : Field} :
    (Question.token field).MetBy parts ↔ Part.tokenIn field parts = true := Iff.rfl
@[simp] theorem metBy_element {parts : List Part} {field : Field} :
    (Question.element field).MetBy parts ↔ Part.elementIn field parts = true := Iff.rfl

end Question

namespace Role

/-- One more node, in the role, has been added to the parts. -/
def Made (role : Role) (ps qs : List Part) : Prop :=
  ∃ kind, role.admits kind = true ∧ qs = .node kind none :: ps

@[simp] theorem admits_family (f : Family) (k : Kind) :
    (Role.family f).admits k = f.admits k := rfl
@[simp] theorem admits_only (k l : Kind) : (Role.only k).admits l = (k == l) := rfl
@[simp] theorem admits_any (k : Kind) : Role.any.admits k = true := rfl

end Role

/-- Two parts, an operand and its operator, in either order. -/
def Part.IsUpdate (parts : List Part) : Prop :=
  ∃ kind, parts = [.token (some .operator), .node kind (some .argument)] ∨
    parts = [.node kind (some .argument), .token (some .operator)]

/-- What nodes of the kind have to answer, if nothing is wrong with the text. -/
def View.required (kind : Kind) : List Question :=
  (((View.of? kind).getD []).map Prod.snd).filter fun q =>
    q.slot?.any fun field => !(View.optional kind).contains field

/-- A node of the kind with these parts can answer all that it has to. -/
structure Answers (kind : Kind) (parts : List Part) : Prop where
  met : ∀ q ∈ View.required kind, q.MetBy parts
  update : kind = .updateExpr → Part.IsUpdate parts

/-- Of most kinds it has only to be looked up what they are asked. -/
theorem answers_iff {kind : Kind} {qs : List Question} (hqs : View.required kind = qs)
    (hkind : kind ≠ .updateExpr) {parts : List Part} :
    Answers kind parts ↔ ∀ q ∈ qs, q.MetBy parts :=
  ⟨fun h => hqs ▸ h.met, fun h => ⟨hqs ▸ h, fun hupdate => absurd hupdate hkind⟩⟩

/-- Where nothing is asked, there is nothing to answer. -/
theorem Answers.of_required_nil {kind : Kind} (h : View.required kind = []) (parts : List Part) :
    Answers kind parts := by
  refine (answers_iff h ?_).2 fun q hq => absurd hq List.not_mem_nil
  rintro rfl
  cases h

/-! ## Shapes -/

namespace Shape

/-- What a shape shows to the node around it. -/
def part : Shape → Part
  | .token _ field .. => .token field
  | .node kind field _ => .node kind field

@[simp] theorem part_withField (f : Field) (s : Shape) :
    (s.withField f).part = s.part.withField f := by
  cases s <;> rfl

mutual

/-- Every node of a shape can answer, and no token is empty. -/
def Answered : Shape → Prop
  | .token _ _ _ text _ => text ≠ []
  | .node kind _ children => Answers kind (children.reverse.map part) ∧ AnsweredAll children

/-- Every node of several shapes can answer. -/
def AnsweredAll : List Shape → Prop
  | [] => True
  | s :: ss => s.Answered ∧ AnsweredAll ss

end

theorem answeredAll_iff {ss : List Shape} : AnsweredAll ss ↔ ∀ s ∈ ss, s.Answered := by
  induction ss with
  | nil => simp [AnsweredAll]
  | cons s ss ih => simp [AnsweredAll, ih]

/-- A slot changes nothing inside a shape. -/
theorem answered_withField {f : Field} {s : Shape} : (s.withField f).Answered ↔ s.Answered := by
  cases s <;> simp only [withField, Answered]

end Shape

/-! ## What parsers promise -/

/-- What a rule makes. -/
def Rule.role : Rule → Role
  | .statement => .family .statement
  | .expression .. | .unary | .construction => .family .expression
  | .type => .family .type
  | .element => .only .xmlElement

namespace Parser

/-- What holds of the value and the parts behind a parser, if nothing is reported.  A token may be
of any kind, and of a rule only its role is known. -/
def Flow : {α : Type} → Parser α → List Part → (α → List Part → Prop) → Prop
  | _, .done value, ps, Q => Q value ps
  | _, .andThen first next, ps, Q => Flow first ps fun value qs => Flow (next value) qs Q
  | _, .look _, ps, Q => ∀ g, Q g ps
  | _, .ahead _, ps, Q => ∀ g, Q g ps
  | _, .take field, ps, Q => Q () (.token field :: ps)
  | _, .takeWord _ field, ps, Q => Q () (.token field :: ps)
  | _, .report _, _, _ => True
  | _, .node body, ps, Q =>
    body.Yields fun made => made.1 ≠ .error → Q made.2 (.node made.1 none :: ps)
  | _, .wrap _ body, ps, Q =>
    body.Yields fun kind => kind ≠ .error → Q () (.node kind none :: ps.drop 1)
  | _, .label field, ps, Q => Q () (Part.labelLast field ps)
  | _, .loop body, ps, Q => ∃ I : List Part → Prop, I ps ∧
      ∀ qs, I qs → Flow body qs fun goesOn rs => if goesOn then I rs else Q () rs
  | _, .call rule, ps, Q => ∀ kind, rule.role.admits kind = true → Q () (.node kind none :: ps)
  | _, .require .., ps, Q => Q () ps

/-- Every node that the parser makes by itself can answer, if nothing is reported. -/
def Checks : {α : Type} → Parser α → List Part → Prop
  | _, .andThen first next, ps =>
    Checks first ps ∧ first.Flow ps fun value qs => Checks (next value) qs
  | _, .node body, _ => Checks body [] ∧
      body.Flow [] fun made qs => made.1 ≠ .error → Answers made.1 qs
  | _, .wrap field body, ps => Checks body ((ps.take 1).map (Part.withField field)) ∧
      body.Flow ((ps.take 1).map (Part.withField field)) fun kind qs =>
        kind ≠ .error → Answers kind qs
  | _, .loop body, ps => ∃ I : List Part → Prop, I ps ∧
      ∀ qs, I qs → Checks body qs ∧ body.Flow qs fun goesOn rs => goesOn = true → I rs
  | _, _, _ => True

variable {α β : Type}

/-- Of no run is more promised than what holds anyway. -/
theorem flow_of_forall {Q : α → List Part → Prop} (h : ∀ value qs, Q value qs) (p : Parser α)
    (ps : List Part) : p.Flow ps Q := by
  induction p generalizing ps with
  | done value => exact h value ps
  | andThen first next ihFirst ihNext => exact ihFirst (fun value qs => ihNext value h qs) ps
  | look mode => exact fun g => h g ps
  | ahead distance => exact fun g => h g ps
  | report error => trivial
  | node body => exact .of_forall (fun made _ => h made.2 _) body
  | wrap field body => exact .of_forall (fun kind _ => h () _) body
  | loop body ih =>
    refine ⟨fun _ => True, trivial, fun qs _ => ih (fun goesOn rs => ?_) qs⟩
    split
    · trivial
    · exact h () rs
  | call rule => exact fun kind _ => h () _
  | _ => exact h () _

theorem Yields.mono {P Q : α → Prop} {p : Parser α} (h : p.Yields P)
    (hpq : ∀ value, P value → Q value) : p.Yields Q := by
  induction p with
  | done value => exact hpq value h
  | andThen first next ihFirst ihNext =>
    exact ihFirst h fun value hnext => ihNext value hnext hpq
  | look mode => exact fun g => hpq g (h g)
  | ahead distance => exact fun g => hpq g (h g)
  | node body ih => exact ih h fun made hmade => hpq made.2 hmade
  | _ => exact hpq () h

/-- What holds of the values holds whatever the parts are. -/
theorem Yields.flow {Q : α → List Part → Prop} {p : Parser α}
    (h : p.Yields fun value => ∀ qs, Q value qs) (ps : List Part) : p.Flow ps Q := by
  induction p generalizing ps with
  | done value => exact h ps
  | andThen first next ihFirst ihNext =>
    have hfirst : first.Yields fun value => (next value).Yields fun value => ∀ qs, Q value qs := h
    exact ihFirst (hfirst.mono fun value hnext qs => ihNext value hnext qs) ps
  | look mode => exact fun g => h g ps
  | ahead distance => exact fun g => h g ps
  | report error => trivial
  | node body =>
    have hbody : body.Yields fun made => ∀ qs, Q made.2 qs := h
    exact hbody.mono fun made hmade _ => hmade _
  | wrap field body => exact .of_forall (fun kind _ => h _) body
  | loop body =>
    refine ⟨fun _ => True, trivial, fun qs _ => flow_of_forall (fun goesOn rs => ?_) body qs⟩
    split
    · trivial
    · exact h rs
  | call rule => exact fun kind _ => h _
  | _ => exact h _

theorem Flow.mono {P Q : α → List Part → Prop} {p : Parser α} {ps : List Part}
    (h : p.Flow ps P) (hpq : ∀ value qs, P value qs → Q value qs) : p.Flow ps Q := by
  induction p generalizing ps with
  | done value => exact hpq value ps h
  | andThen first next ihFirst ihNext =>
    exact ihFirst h fun value qs hnext => ihNext value hnext hpq
  | look mode => exact fun g => hpq g ps (h g)
  | ahead distance => exact fun g => hpq g ps (h g)
  | report error => trivial
  | node body => exact Yields.mono h fun made hmade hne => hpq made.2 _ (hmade hne)
  | wrap field body => exact Yields.mono h fun kind hkind hne => hpq () _ (hkind hne)
  | loop body ih =>
    obtain ⟨I, hI, hbody⟩ := h
    refine ⟨I, hI, fun qs hqs => ih (hbody qs hqs) fun goesOn rs hrs => ?_⟩
    split
    · simpa [*] using hrs
    · exact hpq () rs (by simpa [*] using hrs)
  | call rule => exact fun kind hkind => hpq () _ (h kind hkind)
  | _ => exact hpq () _ h

end Parser

/-! ## Quiet runs -/

namespace State

/-- Nothing is wrong so far: the parse has not been stopped, nothing has been reported and no error
node has been made. -/
structure Quiet (s : State) : Prop where
  aborted : s.aborted = none
  reports : s.reports = []
  errors : Shape.errorNodes s.children = 0

/-- The state `t` comes after `s`, and the error nodes of `s` are still there. -/
structure Grows (s t : State) : Prop where
  leads : s.Leads t
  errors : Shape.errorNodes s.children ≤ Shape.errorNodes t.children

namespace Grows

variable {s t u : State}

theorem refl (s : State) : s.Grows s := ⟨.refl s, Nat.le_refl _⟩

theorem trans (h₁ : s.Grows t) (h₂ : t.Grows u) : s.Grows u :=
  ⟨h₁.leads.trans h₂.leads, Nat.le_trans h₁.errors h₂.errors⟩

/-- What comes before a quiet state is quiet. -/
theorem quiet (h : s.Grows t) (ht : t.Quiet) : s.Quiet where
  aborted := h.leads.aborted ht.aborted
  reports := List.suffix_nil.1 (ht.reports ▸ h.leads.reports)
  errors := Nat.eq_zero_of_le_zero (ht.errors ▸ h.errors)

/-- Closing a node keeps the error nodes that it took over and those around it. -/
theorem close {inner outer : List Shape} {limits : Limits}
    (hchildren : Shape.errorNodes inner + Shape.errorNodes outer = Shape.errorNodes s.children)
    (h : (s.enter limits inner).Grows t) (kind : Kind) : s.Grows (t.close outer kind) := by
  obtain ⟨hleads, herrors⟩ := h
  rw [enter_children] at herrors
  refine ⟨((Leads.enter s limits inner).trans hleads).close outer kind, ?_⟩
  rw [close_children, Shape.errorNodes_cons, Shape.errorNodes_node]
  have hreverse : Shape.errorNodes t.children.reverse = Shape.errorNodes t.children :=
    Shape.tallyAll_reverse _ _ _
  omega

theorem repeatWhile {step : State → Bool × State} (hstep : ∀ s : State, s.Grows (step s).2)
    (limit : Nat) (s : State) : s.Grows (repeatWhile step limit s) := by
  induction limit generalizing s with
  | zero => exact ⟨.of_eq rfl rfl rfl, Nat.le_refl _⟩
  | succ limit ih =>
    have hs := hstep s
    rw [State.repeatWhile]
    split
    · rename_i t ht
      rw [ht] at hs
      have hnote : s.Grows (s.noteStall t) := ⟨hs.leads.noteStall, hs.errors⟩
      exact hnote.trans (ih _)
    · rename_i t ht
      rw [ht] at hs
      exact hs

end Grows

/-- A node that is closed without an error is no error node, and its inside was quiet. -/
theorem Quiet.of_close {t : State} {outer : List Shape} {kind : Kind}
    (h : (t.close outer kind).Quiet) : kind ≠ .error ∧ t.Quiet := by
  obtain ⟨haborted, hreports, herrors⟩ := h
  rw [close_children, Shape.errorNodes_cons, Shape.errorNodes_node] at herrors
  have hreverse : Shape.errorNodes t.children.reverse = Shape.errorNodes t.children :=
    Shape.tallyAll_reverse _ _ _
  refine ⟨fun hkind => ?_, haborted, hreports, by omega⟩
  rw [if_pos hkind] at herrors
  omega

/-- A report makes itself heard. -/
theorem not_quiet_report [Alphabet] {s : State} {error : SyntaxError} :
    ¬(s.report error).Quiet := by
  rintro ⟨haborted, hreports, -⟩
  rw [report_aborted] at haborted
  simp only [State.report, haborted] at hreports
  cases hreports

/-- What the open node shows so far, the last part first. -/
def parts (s : State) : List Part := s.children.map Shape.part

/-- Everything that has been made can answer. -/
def Answered (s : State) : Prop := ∀ c ∈ s.children, c.Answered

@[simp] theorem parts_takeAs [Alphabet] (s : State) (limits : Limits) (kind : Kind)
    (field : Option Field) :
    (s.takeAs limits kind field).parts = .token field :: s.parts := by
  rw [parts, takeAs_children]
  rfl

@[simp] theorem parts_enter (s : State) (limits : Limits) (children : List Shape) :
    (s.enter limits children).parts = children.map Shape.part := rfl

@[simp] theorem parts_close (s : State) (outer : List Shape) (kind : Kind) :
    (s.close outer kind).parts = .node kind none :: outer.map Shape.part := rfl

@[simp] theorem parts_labelLast (s : State) (field : Field) :
    (s.labelLast field).parts = Part.labelLast field s.parts := by
  cases hs : s.children with
  | nil => simp [parts, State.labelLast, hs, Part.labelLast]
  | cons c cs => simp [parts, State.labelLast, hs]

/-- A token that is there is not empty. -/
theorem Answered.takeAs [Alphabet] {s : State} (h : s.Answered) (hs : s.token.kind ≠ .eof)
    (limits : Limits)
    (kind : Kind) (field : Option Field) : (s.takeAs limits kind field).Answered := by
  intro c hc
  rw [takeAs_children, List.mem_cons] at hc
  rcases hc with rfl | hc
  · rw [Shape.Answered]
    exact Place.next_text_ne hs
  · exact h c hc

theorem Answered.labelLast {s : State} (h : s.Answered) (field : Field) :
    (s.labelLast field).Answered := by
  cases hs : s.children with
  | nil =>
    rw [State.labelLast, hs]
    exact h
  | cons c cs =>
    intro d hd
    rw [labelLast_children s field hs, List.mem_cons] at hd
    rcases hd with rfl | hd
    · exact Shape.answered_withField.2 (h c (by simp [hs]))
    · exact h d (by simp [hs, hd])

/-- A node whose parts answer, around what can answer. -/
theorem Answered.close {s : State} {outer : List Shape} {kind : Kind} (h : s.Answered)
    (houter : ∀ c ∈ outer, c.Answered) (hkind : Answers kind s.parts) :
    (s.close outer kind).Answered := by
  intro c hc
  rw [close_children, List.mem_cons] at hc
  rcases hc with rfl | hc
  · rw [Shape.Answered, List.reverse_reverse, Shape.answeredAll_iff]
    exact ⟨hkind, fun d hd => h d (List.mem_reverse.1 hd)⟩
  · exact houter c hc

end State

namespace Setting

variable [Alphabet] {E : Setting} {α : Type} {s : State}

/-- **Every parser keeps the error nodes that there are.** -/
theorem grows_after (p : Parser α) (s : State) : s.Grows (E.after p s) := by
  induction p generalizing s with
  | done value => exact .refl s
  | andThen first next ihFirst ihNext => exact (ihFirst s).trans (ihNext _ _)
  | look mode => exact ⟨.inMode s mode, Nat.le_refl _⟩
  | ahead distance => exact ⟨.inMode s .operator, Nat.le_refl _⟩
  | take field =>
    refine ⟨.takeAs s _ _ _, ?_⟩
    rw [after_take, State.takeAs_children, Shape.errorNodes_cons]
    omega
  | takeWord keyword field =>
    refine ⟨.takeAs s _ _ _, ?_⟩
    rw [after_takeWord, State.takeAs_children, Shape.errorNodes_cons]
    omega
  | report error => exact ⟨.report s error, by simp⟩
  | node body ih => exact .close (Nat.zero_add _) (ih _) _
  | wrap field body ih =>
    refine .close ?_ (ih _) _
    cases hs : s.children with
    | nil => rfl
    | cons c cs =>
      have hlabel : Shape.errorNodes [c.withField field] = Shape.errorNodes [c] := by
        simp only [Shape.errorNodes, Shape.tallyAll, Shape.tally_withField]
      rw [Shape.errorNodes_cons c cs, ← hlabel]
      rfl
  | label field =>
    refine ⟨.labelLast s field, ?_⟩
    rw [after_label]
    cases hs : s.children with
    | nil => simp [State.labelLast, hs]
    | cons c cs =>
      rw [State.labelLast_children s field hs, Shape.errorNodes_cons, Shape.errorNodes_cons _ cs]
      simp only [Shape.errorNodes, Shape.tallyAll, Shape.tally_withField, Nat.le_refl]
  | loop body ih => exact .repeatWhile ih _ s
  | call rule =>
    obtain ⟨kind, children, hmakes⟩ := E.makes rule s
    refine ⟨E.leads rule s, ?_⟩
    rw [after_call, hmakes, Shape.errorNodes_cons]
    omega
  | require mode kind => exact ⟨.of_eq rfl rfl rfl, Nat.le_refl _⟩

/-- On quiet runs the rules make one node each, in their role, and it can answer. -/
structure Answering (E : Setting) : Prop where
  parts : ∀ (rule : Rule) (s : State), rule.Ready s → (E.apply rule s).Quiet →
    rule.role.Made s.parts (E.apply rule s).parts
  answered : ∀ (rule : Rule) (s : State), rule.Ready s → (E.apply rule s).Quiet → s.Answered →
    (E.apply rule s).Answered

omit [Alphabet] in
/-- A quiet repetition ends with a step that does not go on; up to there each step was quiet and
kept what the steps keep. -/
theorem Proceeds.quiet_exit {safe I : State → Prop} {step : State → Bool × State}
    (hgrows : ∀ t : State, t.Grows (step t).2)
    (hstep : ∀ t, safe t → (step t).2.Quiet → I t → (step t).1 = true → I (step t).2) :
    ∀ {limit : Nat} {s : State}, Proceeds safe step limit s → I s →
      (State.repeatWhile step limit s).Quiet →
      ∃ t, safe t ∧ I t ∧ (step t).1 = false ∧ State.repeatWhile step limit s = (step t).2
  | 0, _, h, _, _ => h.elim
  | limit + 1, s, h, hs, hquiet => by
    obtain ⟨hsafe, hgo⟩ := h
    rw [State.repeatWhile] at hquiet ⊢
    split at hquiet
    · rename_i t ht
      rw [ht] at hgo
      obtain ⟨hmoves, hrest⟩ := hgo rfl
      rw [noteStall_of_moves hmoves] at hquiet ⊢
      have hafter := (State.Grows.repeatWhile hgrows limit t).quiet hquiet
      have hinv := hstep s hsafe (by rwa [ht]) hs (by rw [ht])
      rw [ht] at hinv
      exact quiet_exit hgrows hstep hrest hinv hquiet
    · rename_i t ht
      exact ⟨s, hsafe, hs, by rw [ht], by rw [ht]⟩

/-- **A quiet run does what its parser promises**, if the rules do. -/
theorem flow_after (hE : E.Answering) {p : Parser α} {Q : α → List Part → Prop}
    (hsafe : E.Safe p s) (hquiet : (E.after p s).Quiet) (h : p.Flow s.parts Q) :
    Q (E.val p s) (E.after p s).parts := by
  induction p generalizing s with
  | done value => exact h
  | andThen first next ihFirst ihNext =>
    have hfirst := (grows_after (next (E.val first s)) (E.after first s)).quiet hquiet
    exact ihNext _ hsafe.2 hquiet (ihFirst hsafe.1 hfirst h)
  | look mode => exact h _
  | ahead distance => exact h _
  | take field =>
    rw [after_take, State.parts_takeAs]
    exact h
  | takeWord keyword field =>
    rw [after_takeWord, State.parts_takeAs]
    exact h
  | report error => exact absurd hquiet State.not_quiet_report
  | node body ih => exact h.val E _ hquiet.of_close.1
  | wrap field body ih =>
    rw [after_wrap] at hquiet ⊢
    rw [State.parts_close, List.map_drop]
    exact h.val E _ hquiet.of_close.1
  | label field =>
    rw [after_label, State.parts_labelLast]
    exact h
  | loop body ih =>
    obtain ⟨I, hI, hbody⟩ := h
    have hkeeps (t : State) (hstep : E.Safe body t) (hafter : (E.after body t).Quiet)
        (ht : I t.parts) (hval : E.val body t = true) : I (E.after body t).parts := by
      have hinv := ih hstep hafter (hbody _ ht)
      rwa [hval, if_pos rfl] at hinv
    obtain ⟨t, hstep, ht, hval, hexit⟩ := Proceeds.quiet_exit (fun t => grows_after body t) hkeeps
      hsafe hI hquiet
    have hexit : E.after (.loop body) s = E.after body t := hexit
    rw [hexit] at hquiet ⊢
    have hlast := ih hstep hquiet (hbody _ ht)
    have hval : E.val body t = false := hval
    rw [hval] at hlast
    simpa using hlast
  | call rule =>
    obtain ⟨kind, hkind, hparts⟩ := hE.parts rule s hsafe hquiet
    rw [after_call, hparts]
    exact h kind hkind
  | require mode kind => exact h

/-- **On a quiet run every node that is made can answer**, if the parser checks that and the rules
do it. -/
theorem answered_after (hE : E.Answering) {p : Parser α} (hsafe : E.Safe p s)
    (hquiet : (E.after p s).Quiet) (h : p.Checks s.parts) (hs : s.Answered) :
    (E.after p s).Answered := by
  induction p generalizing s with
  | done value => exact hs
  | andThen first next ihFirst ihNext =>
    have hfirst := (grows_after (next (E.val first s)) (E.after first s)).quiet hquiet
    exact ihNext _ hsafe.2 hquiet (flow_after hE hsafe.1 hfirst h.2)
      (ihFirst hsafe.1 hfirst h.1 hs)
  | look mode => exact hs
  | ahead distance => exact hs
  | take field =>
    have hbefore := (grows_after (E := E) (.take field) s).quiet hquiet
    exact hs.takeAs (hsafe hbefore.aborted) _ _ _
  | takeWord keyword field =>
    have hbefore := (grows_after (E := E) (.takeWord keyword field) s).quiet hquiet
    exact hs.takeAs (hsafe hbefore.aborted).kind_ne_eof _ _ _
  | report error => exact absurd hquiet State.not_quiet_report
  | node body ih =>
    rw [after_node] at hquiet ⊢
    obtain ⟨hne, hinner⟩ := hquiet.of_close
    have hbody : E.Safe body (s.enter E.limits []) := hsafe
    refine State.Answered.close ?_ hs (flow_after hE hbody hinner h.2 hne)
    exact ih hbody hinner h.1 fun c hc => absurd hc List.not_mem_nil
  | wrap field body ih =>
    rw [after_wrap] at hquiet ⊢
    obtain ⟨hne, hinner⟩ := hquiet.of_close
    have hparts : (s.enter E.limits ((s.children.take 1).map (Shape.withField field))).parts =
        (s.parts.take 1).map (Part.withField field) := by
      simp [State.parts, List.map_take, Function.comp_def]
    have hinside : (s.enter E.limits
        ((s.children.take 1).map (Shape.withField field))).Answered := by
      intro c hc
      obtain ⟨d, hd, rfl⟩ := List.mem_map.1 hc
      exact Shape.answered_withField.2 (hs d (List.mem_of_mem_take hd))
    rw [Parser.Checks, ← hparts] at h
    refine State.Answered.close ?_ (fun c hc => hs c (List.mem_of_mem_drop hc))
      (flow_after hE hsafe.2.2 hinner h.2 hne)
    exact ih hsafe.2.2 hinner h.1 hinside
  | label field => exact hs.labelLast field
  | loop body ih =>
    obtain ⟨I, hI, hbody⟩ := h
    have hkeeps (t : State) (hstep : E.Safe body t) (hafter : (E.after body t).Quiet)
        (ht : I t.parts ∧ t.Answered) (hval : E.val body t = true) :
        I (E.after body t).parts ∧ (E.after body t).Answered :=
      ⟨flow_after hE hstep hafter (hbody _ ht.1).2 hval, ih hstep hafter (hbody _ ht.1).1 ht.2⟩
    obtain ⟨t, hstep, ht, -, hexit⟩ := Proceeds.quiet_exit (fun t => grows_after body t) hkeeps
      hsafe ⟨hI, hs⟩ hquiet
    have hexit : E.after (.loop body) s = E.after body t := hexit
    rw [hexit] at hquiet ⊢
    exact ih hstep hquiet (hbody _ ht.1).1 ht.2
  | call rule => exact hE.answered rule s hsafe hquiet hs
  | require mode kind => exact hs

end Setting

/-! ## Instructions -/

namespace Parser

section
variable {α β : Type} {ps : List Part}

@[simp] theorem yields_look {mode : Mode} {Q : Glimpse → Prop} :
    (look mode).Yields Q ↔ ∀ g, Q g := Iff.rfl
@[simp] theorem yields_ahead {n : Nat} {Q : Glimpse → Prop} :
    (ahead n).Yields Q ↔ ∀ g, Q g := Iff.rfl

@[simp] theorem flow_pure {a : α} {Q : α → List Part → Prop} :
    (pure a : Parser α).Flow ps Q ↔ Q a ps := Iff.rfl
@[simp] theorem flow_bind {p : Parser β} {f : β → Parser α} {Q : α → List Part → Prop} :
    (p >>= f).Flow ps Q ↔ p.Flow ps fun value qs => (f value).Flow qs Q := Iff.rfl
@[simp] theorem flow_look {mode : Mode} {Q : Glimpse → List Part → Prop} :
    (look mode).Flow ps Q ↔ ∀ g, Q g ps := Iff.rfl
@[simp] theorem flow_ahead {n : Nat} {Q : Glimpse → List Part → Prop} :
    (ahead n).Flow ps Q ↔ ∀ g, Q g ps := Iff.rfl
@[simp] theorem flow_take {field : Option Field} {Q : Unit → List Part → Prop} :
    (take field).Flow ps Q ↔ Q () (.token field :: ps) := Iff.rfl
@[simp] theorem flow_takeWord {keyword : Kind} {field : Option Field}
    {Q : Unit → List Part → Prop} :
    (takeWord keyword field).Flow ps Q ↔ Q () (.token field :: ps) := Iff.rfl
@[simp] theorem flow_report (error : SyntaxError) (Q : Unit → List Part → Prop) :
    (report error).Flow ps Q := trivial
@[simp] theorem flow_node {body : Parser (Kind × α)} {Q : α → List Part → Prop} :
    (node body).Flow ps Q ↔
      body.Yields fun made => made.1 ≠ .error → Q made.2 (.node made.1 none :: ps) := Iff.rfl
@[simp] theorem flow_wrap {field : Field} {body : Parser Kind} {Q : Unit → List Part → Prop} :
    (wrap field body).Flow ps Q ↔
      body.Yields fun kind => kind ≠ .error → Q () (.node kind none :: ps.drop 1) := Iff.rfl
@[simp] theorem flow_label {field : Field} {Q : Unit → List Part → Prop} :
    (label field).Flow ps Q ↔ Q () (Part.labelLast field ps) := Iff.rfl
@[simp] theorem flow_call {rule : Rule} {Q : Unit → List Part → Prop} :
    (call rule).Flow ps Q ↔
      ∀ kind, rule.role.admits kind = true → Q () (.node kind none :: ps) := Iff.rfl
@[simp] theorem flow_require {mode : Mode} {kind : Kind} {Q : Unit → List Part → Prop} :
    (require mode kind).Flow ps Q ↔ Q () ps := Iff.rfl
@[simp] theorem flow_true (p : Parser α) : p.Flow ps fun _ _ => True :=
  flow_of_forall (fun _ _ => trivial) p ps

@[simp] theorem flow_ite {c : Prop} [Decidable c] {p q : Parser α} {Q : α → List Part → Prop} :
    (if c then p else q).Flow ps Q ↔ (c → p.Flow ps Q) ∧ (¬c → q.Flow ps Q) := by
  split <;> simp [*]

@[simp] theorem flow_nodeOf {kind : Kind} {body : Parser Unit} {Q : Unit → List Part → Prop} :
    (nodeOf kind body).Flow ps Q ↔ (kind ≠ .error → Q () (.node kind none :: ps)) := by
  change ((body >>= fun _ => pure (kind, ())).Yields fun made =>
    made.1 ≠ .error → Q made.2 (.node made.1 none :: ps)) ↔ _
  simp

@[simp] theorem flow_when {c : Bool} {p : Parser Unit} {Q : Unit → List Part → Prop} :
    (when c p).Flow ps Q ↔ (c = true → p.Flow ps Q) ∧ (c = false → Q () ps) := by
  simp [when]

@[simp] theorem checks_pure (a : α) : (pure a : Parser α).Checks ps := trivial
@[simp] theorem checks_bind {p : Parser β} {f : β → Parser α} :
    (p >>= f).Checks ps ↔ p.Checks ps ∧ p.Flow ps fun value qs => (f value).Checks qs := Iff.rfl
@[simp] theorem checks_look (mode : Mode) : (look mode).Checks ps := trivial
@[simp] theorem checks_ahead (n : Nat) : (ahead n).Checks ps := trivial
@[simp] theorem checks_take (field : Option Field) : (take field).Checks ps := trivial
@[simp] theorem checks_takeWord (keyword : Kind) (field : Option Field) :
    (takeWord keyword field).Checks ps := trivial
@[simp] theorem checks_report (error : SyntaxError) : (report error).Checks ps := trivial
@[simp] theorem checks_node {body : Parser (Kind × α)} :
    (node body).Checks ps ↔ body.Checks [] ∧
      body.Flow [] fun made qs => made.1 ≠ .error → Answers made.1 qs := Iff.rfl
@[simp] theorem checks_wrap {field : Field} {body : Parser Kind} :
    (wrap field body).Checks ps ↔ body.Checks ((ps.take 1).map (Part.withField field)) ∧
      body.Flow ((ps.take 1).map (Part.withField field)) fun kind qs =>
        kind ≠ .error → Answers kind qs := Iff.rfl
@[simp] theorem checks_label (field : Field) : (label field).Checks ps := trivial
@[simp] theorem checks_call (rule : Rule) : (call rule).Checks ps := trivial
@[simp] theorem checks_require (mode : Mode) (kind : Kind) :
    (require mode kind).Checks ps := trivial

@[simp] theorem checks_ite {c : Prop} [Decidable c] {p q : Parser α} :
    (if c then p else q).Checks ps ↔ (c → p.Checks ps) ∧ (¬c → q.Checks ps) := by
  split <;> simp [*]

@[simp] theorem checks_nodeOf {kind : Kind} {body : Parser Unit} :
    (nodeOf kind body).Checks ps ↔
      body.Checks [] ∧ body.Flow [] fun _ qs => kind ≠ .error → Answers kind qs := by
  change ((body >>= fun _ => pure (kind, ())).Checks [] ∧ _) ↔ _
  simp

@[simp] theorem checks_when {c : Bool} {p : Parser Unit} :
    (when c p).Checks ps ↔ (c = true → p.Checks ps) := by
  simp [when]

/-- A repetition makes nodes that can answer if each of its steps does so on its own. -/
@[simp] theorem checks_loop {body : Parser Bool} (h : ∀ qs, body.Checks qs) :
    (loop body).Checks ps :=
  ⟨fun _ => True, trivial, fun qs _ => ⟨h qs, flow_of_forall (fun _ _ _ => trivial) body qs⟩⟩

end

end Parser

/-! ## Repetitions around a node -/

namespace Parser

variable (role : Role) {kind : Kind} {body : Parser Bool} {ps : List Part}

/-- A repetition whose steps make of a node in a role another one does so as a whole. -/
theorem flow_loop_made {Q : Unit → List Part → Prop} (hkind : role.admits kind = true)
    (hbody : ∀ made, role.admits made = true →
      body.Flow (.node made none :: ps) fun _ qs => role.Made ps qs)
    (h : ∀ made, role.admits made = true → Q () (.node made none :: ps)) :
    (loop body).Flow (.node kind none :: ps) Q := by
  refine ⟨role.Made ps, ⟨kind, hkind, rfl⟩, ?_⟩
  rintro _ ⟨made, hmade, rfl⟩
  refine (hbody made hmade).mono fun goesOn qs hqs => ?_
  split
  · exact hqs
  · obtain ⟨last, hlast, rfl⟩ := hqs
    exact h last hlast

theorem checks_loop_made (hkind : role.admits kind = true)
    (hbody : ∀ made, role.admits made = true →
      body.Flow (.node made none :: ps) fun _ qs => role.Made ps qs)
    (h : ∀ made, role.admits made = true → body.Checks (.node made none :: ps)) :
    (loop body).Checks (.node kind none :: ps) := by
  refine ⟨role.Made ps, ⟨kind, hkind, rfl⟩, ?_⟩
  rintro _ ⟨made, hmade, rfl⟩
  exact ⟨h made hmade, (hbody made hmade).mono fun _ _ hqs _ => hqs⟩

end Parser

/-! ## Adding to a node -/

/-- Parts have been added, in none but the given slots. -/
def Part.Adds (slots : List Field) (ps qs : List Part) : Prop :=
  ∃ more, qs = more ++ ps ∧ ∀ p ∈ more, ∀ f, p.field = some f → f ∈ slots

namespace Part.Adds

variable {slots : List Field} {ps qs rs : List Part}

@[simp] theorem refl (slots : List Field) (ps : List Part) : Adds slots ps ps :=
  ⟨[], rfl, fun _ hp => absurd hp List.not_mem_nil⟩

theorem trans (h₁ : Adds slots ps qs) (h₂ : Adds slots qs rs) : Adds slots ps rs := by
  obtain ⟨more, rfl, hmore⟩ := h₁
  obtain ⟨last, rfl, hlast⟩ := h₂
  refine ⟨last ++ more, by simp, fun p hp => ?_⟩
  rcases List.mem_append.1 hp with hp | hp
  · exact hlast p hp
  · exact hmore p hp

/-- One more part, without a slot or in one of the slots. -/
theorem cons {p : Part} (h : Adds slots ps qs) (hp : ∀ f, p.field = some f → f ∈ slots) :
    Adds slots ps (p :: qs) := by
  obtain ⟨more, rfl, hmore⟩ := h
  exact ⟨p :: more, rfl, List.forall_mem_cons.2 ⟨hp, hmore⟩⟩

@[simp] theorem token_none (h : Adds slots ps qs) : Adds slots ps (.token none :: qs) :=
  h.cons fun _ hf => (by cases hf)

@[simp] theorem token {f : Field} (hf : f ∈ slots) (h : Adds slots ps qs) :
    Adds slots ps (.token (some f) :: qs) :=
  h.cons fun _ hg => Option.some.inj hg ▸ hf

@[simp] theorem node {f : Field} (hf : f ∈ slots) (kind : Kind) (h : Adds slots ps qs) :
    Adds slots ps (.node kind (some f) :: qs) :=
  h.cons fun _ hg => Option.some.inj hg ▸ hf

/-- What stood first in a slot still does. -/
theorem nodeIn? (h : Adds slots ps qs) {f : Field} {kind : Kind}
    (hf : Part.nodeIn? f ps = some kind) : Part.nodeIn? f qs = some kind := by
  obtain ⟨more, rfl, -⟩ := h
  induction more with
  | nil => exact hf
  | cons p more ih => rw [List.cons_append, Part.nodeIn?, ih, Option.some_or]

/-- The other slots hold what they held. -/
theorem nodeIn?_eq (h : Adds slots ps qs) {f : Field} (hf : f ∉ slots) :
    Part.nodeIn? f qs = Part.nodeIn? f ps := by
  obtain ⟨more, rfl, hmore⟩ := h
  induction more with
  | nil => rfl
  | cons p more ih =>
    rw [List.forall_mem_cons] at hmore
    have hp : p.field ≠ some f := fun hp => hf (hmore.1 f hp)
    rw [List.cons_append, Part.nodeIn?, ih hmore.2, if_neg hp, Option.or_none]

end Part.Adds

/-- A repetition whose steps add in none but the given slots does so as a whole. -/
theorem Parser.flow_loop {body : Parser Bool} {ps : List Part} {Q : Unit → List Part → Prop}
    (slots : List Field) (hbody : ∀ qs, body.Flow qs fun _ rs => Part.Adds slots qs rs)
    (h : ∀ qs, Part.Adds slots ps qs → Q () qs) : (loop body).Flow ps Q := by
  refine ⟨Part.Adds slots ps, .refl slots ps, fun qs hqs => (hbody qs).mono fun goesOn rs hrs => ?_⟩
  split
  · exact hqs.trans hrs
  · exact h rs (hqs.trans hrs)

end ActionScript
