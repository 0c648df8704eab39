import ActionScript.Proofs.Printing.Statements

/-!
# Statements that branch, jump, have a label or declare variables

* `Stmt.legible_switch`, `Stmt.legible_tryBlock`: statements with clauses.
* `Stmt.legible_exit`, `Stmt.legible_jump`: what may be left out is told by the next token, which
  ends the statement or stands on the same line.
* `Stmt.legible_labeled`, `Stmt.legible_declaration`: what is told by looking further ahead.
-/

set_option autoImplicit false

namespace ActionScript

open ActionScript.Parser ActionScript.Grammar Trivia

namespace Stmt

open Setting Shape

variable {limits : Limits} {n : Nat} (hl : limits.Endless)
include hl

/-! ## Clauses -/

variable [Alphabet]

theorem legible_switch {value : Expr} {clauses : List Clause}
    (hclauses : ∀ c ∈ clauses, c.IsLegible limits n) (hvalue : value.levels ≤ n + 1) :
    (switch value clauses).IsLegible limits (n + 1) := by
  refine .of_node hl (k := .switchKw) (by decide)
    (fun tail => enclosed .value value ++ [(braces .switchBody (shapesOfClauses clauses []) []
      (leavesOfClauses clauses []) tail).withField .body])
    (fun _ _ => rfl) (fun g h => by rw [wordStatement, h]; rfl) (fun tail more h => ?_)
    fun depth hdepth tail more h made => ?_
  · rw [sourceAll_append, List.append_assoc]
    exact settled_enclosed _ _ _
  · have hsolid :=
      solid_braces .switchBody (shapesOfClauses clauses []) (leavesOfClauses clauses []) tail more
    have hends := endsClause_shapesOfClauses hl clauses (.inl rfl) h.closes
    have hopen := Mode.reads_lCurly (.inl rfl) (.inl rfl) hends.settled
    rw [← source_braces_append .switchBody] at hopen
    simp only [sourceAll_append, sourceAll, source_withField, List.append_assoc, List.nil_append,
      List.reverse_append, List.reverse_cons, List.reverse_nil, List.cons_append]
    refine (goes_enclosed hl value (by omega) (settled_of_solid hsolid) _ _ _).bind ?_
    refine (goes_sees _ _ _ _).bind (Goes.bind (b := ()) (.of_pos (by rw [hopen.ahead]; rfl) ?_)
      (goes_label _ _ _ _ _))
    exact goes_switchBody hl hclauses hdepth h.closes _

theorem legible_tryBlock {body : List Stmt} {handlers : Handlers} (hbody : AreLegible limits n body)
    (hhandlers : ∀ ss ∈ handlers.bodies, AreLegible limits n ss) :
    (tryBlock body handlers).IsLegible limits (n + 1) := by
  refine .of_node hl (k := .tryKw) (by decide)
    (fun tail =>
      (braces .block (shapesAll body [] gap) [] (leavesAll body [] gap) gap).withField .body ::
      shapesOfHandlers handlers tail)
    (fun _ _ => rfl) (fun g h => by rw [wordStatement, h]; rfl) (fun tail more h => ?_)
    fun depth hdepth tail more h made => ?_
  · rw [sourceAll, source_withField, List.append_assoc]
    exact settled_of_solid (solid_braces _ _ _ _ _)
  · have hblock := goes_bodyBlock hl hbody hdepth (.inl ⟨rfl, settled_handlers handlers tail more⟩)
      .operator made
    obtain ⟨rest, made', hrounds, hclause⟩ := rounds_handlers hl handlers hhandlers hdepth h.closes
      h.handlers ((braces .block (shapesAll body [] gap) [] (leavesAll body [] gap) gap).withField
        .body :: made)
    rw [sourceAll, source_withField, List.append_assoc, List.reverse_cons, List.append_assoc]
    refine hblock.bind ((goes_seesWord _ _ _ _).bind ((goes_loop hrounds).bind ?_))
    refine (goes_seesWord _ _ _ _).bind (hclause.bind ?_)
    rw [isWord_catch]
    exact goes_pure _ _

/-! ## Exits and jumps -/

theorem legible_exit (keyword : ExitKeyword) (operand : Option Expr) (ending : Ending) :
    (exit keyword operand ending).IsLegible limits (Expr.levelsOfOption operand) := by
  have hopens : keyword.kind ∈ openingKeywords := by
    obtain ⟨k, hk⟩ := keyword
    rcases hk with rfl | rfl <;> decide
  have hparser (g : Glimpse) (h : Kind.ofWord? g.text = some keyword.kind) :
      wordStatement g = valueStatement keyword.kind keyword.node := by
    obtain ⟨k, hk⟩ := keyword
    rcases hk with rfl | rfl <;> rw [wordStatement, h] <;> rfl
  refine .of_node hl hopens (fun tail => optional .value operand ++ ending.shapes tail)
    (fun _ _ => rfl) hparser (fun tail more h => ?_) fun depth hdepth tail more h made => ?_
  · rw [sourceAll_append, List.append_assoc]
    exact settled_optional hl _ _ (ending.endsContents h.closes).settled
  · have hends := ending.endsContents h.closes
    have hending := goes_ending (E := atDepth limits depth) hl ending h.closes
    rw [sourceAll_append, List.append_assoc, List.reverse_append, List.append_assoc]
    refine (goes_look _ _ _ _).bind ?_
    cases operand with
    | none =>
      rw [Shape.optional, sourceAll, List.nil_append]
      refine Goes.bind (.of_neg ?_ (goes_pure _ _)) (hending _ _)
      rcases hends.ending with hsemicolon | hline
      · rw [Text.ahead] at hsemicolon
        simp [hsemicolon]
      · simp [hline.startsLine]
    | some e =>
      have hlegible := Expr.legible hl e
      have hgap := ends_gap_of_settled hends.settled
      have hlevels : 4 * e.height + 4 ≤ depth := hdepth
      have hne := (hlegible.opens gap _ hgap).ahead_ne
      obtain ⟨kind, t, -, hglimpse⟩ := e.exists_glimpse_bracket false hends.settled
      have hline :
          ((e.shape gap).source ++ (sourceAll (ending.shapes tail) ++ more)).glimpse .operator =
        ⟨kind, t, false⟩ := hglimpse
      have hdeep : 4 * e.height + 2 ≤ depth := by omega
      rw [Text.ahead, hline] at hne
      simp only [Shape.optional, sourceAll, source_withField, List.append_nil]
      refine Goes.bind (.of_pos ?_ (goes_callIn (hlegible.toReadable.goes_whole hdeep hgap
        (hends.follows _ _ _) _ _))) (hending _ _)
      simp [hne, hline]

theorem legible_jump (keyword : JumpKeyword) (label : Option Name) (ending : Ending) (n : Nat) :
    (jump keyword label ending).IsLegible limits n := by
  have hopens : keyword.kind ∈ openingKeywords := by
    obtain ⟨k, hk⟩ := keyword
    rcases hk with rfl | rfl <;> decide
  have hparser (g : Glimpse) (h : Kind.ofWord? g.text = some keyword.kind) :
      wordStatement g = jumpStatement keyword.kind keyword.node := by
    obtain ⟨k, hk⟩ := keyword
    rcases hk with rfl | rfl <;> rw [wordStatement, h] <;> rfl
  refine .of_node hl hopens
    (fun tail => (label.map fun n => (ident n gap).withField .label).toList ++ ending.shapes tail)
    (fun _ _ => rfl) hparser (fun tail more h => ?_) fun depth hdepth tail more h made => ?_
  · have hsettled := (ending.endsContents h.closes).settled
    rw [sourceAll_append, List.append_assoc]
    cases label with
    | none => exact hsettled
    | some n =>
      simp only [Option.map_some, Option.toList_some, sourceAll, source_withField, List.append_nil]
      exact settled_of_solid (Phrase.solid_ident n gap _)
  · have hends := ending.endsContents h.closes
    have hending := goes_ending (E := atDepth limits depth) hl ending h.closes
    rw [sourceAll_append, List.append_assoc, List.reverse_append, List.append_assoc]
    refine (goes_look _ _ _ _).bind ?_
    cases label with
    | none =>
      rw [Option.map_none, Option.toList_none, sourceAll, List.nil_append]
      refine Goes.bind (.of_neg ?_ (goes_pure _ _)) (hending _ _)
      rw [Bool.and_eq_true, beq_iff_eq, Bool.not_eq_true', not_and, Bool.not_eq_false]
      exact hends.words
    | some n =>
      have hread := Mode.operator.reads_name rfl n (ends_gap_of_settled hends.settled)
      simp only [Option.map_some, Option.toList_some, sourceAll, source_withField, List.append_nil]
      rw [hread.glimpse]
      exact Goes.bind (.of_pos rfl (goes_name hl n (.inl rfl) hends.settled _ _ _ _)) (hending _ _)

/-! ## Labels and declarations -/

omit hl in
/-- A name with a colon behind it is no declaration. -/
theorem goes_nextDeclaration?_label {E : Setting} {n : Name} {lead : List Trivia} {cs more : Text}
    (hread : Mode.operator.ReadsBehind lead cs .name n.text gap more) (hcolon : more.ahead = .colon)
    (mode : Mode) (made : List Shape) :
    E.Goes nextDeclaration? ⟨cs, mode, made⟩ none ⟨cs, .operator, made⟩ := by
  have hfirst : cs.glimpseAt 0 = ⟨.name, n.text, lead.any breaksLine⟩ := hread.glimpse
  have hsecond := (Text.reaches_one hread (by decide)).glimpseAt
  have hnone : E.Goes (declarationWord? (15 + 1) 0) ⟨cs, .operator, made⟩ none
      ⟨cs, .operator, made⟩ := by
    refine goes_idleWord n.isIdle hfirst fun hname => ?_
    rw [hsecond, show (more.glimpse .operator).kind = .colon from hcolon] at hname
    cases hname
  exact Goes.of_ahead hnone mode

theorem legible_labeled {label : Name} {body : Stmt} (hbody : body.IsLegible limits n) :
    (labeled label body).IsLegible limits (n + 1) := by
  have hnext {tail : List Trivia} {more : Text} (h : (labeled label body).Followed tail more) :
      body.Followed tail more := ⟨h.closes, h.handlers, h.noElse⟩
  have hsource (lead tail : List Trivia) (more : Text) :
      ((labeled label body).shape lead tail).source ++ more =
        ((ident label gap).led lead).source ++ ((sign .colon none gap).source ++
          ((body.shape [] tail).source ++ more)) := by
    simp [shape, source, sourceAll]
  have hsettled (tail : List Trivia) (more : Text) :=
    settled_of_solid (Text.solid_colon ((body.shape [] tail).source ++ more))
  have hread (mode : Mode) (hcode : mode.isCode = true) {lead : List Trivia} (hlead : Leads lead)
      (tail : List Trivia) (more : Text) :=
    mode.reads_led_name hcode label hlead (hsettled tail more)
  refine ⟨fun lead hlead tail more h => ?_, fun depth hdepth lead hlead tail more h mode made => ?_⟩
  · rw [hsource]
    refine Text.opensStatement_name hlead.leads ?_ (hread .operator rfl hlead.leads tail more)
    rw [source_led lead rfl, List.append_assoc]
    exact settled_of_leads hlead.leads (Phrase.solid_ident label gap _)
  · have hopens := hbody.opens [] body.takes_nil tail more (hnext h)
    have hcolon := Mode.operator.reads_sign .colon rfl (ends_gap_of_settled hopens.settled) none
    have hname := hread .operator rfl hlead.leads tail more
    have hsecond := Text.reaches_one hname (by decide)
    have hthird := (hsecond.step hcolon (by decide)).glimpseAt
    have hword (b : Bool) : wordStatement ⟨.name, label.text, b⟩ = plainWordStatement := by
      rw [wordStatement, label.isFree.1]
    have hstatement : (atDepth limits depth).Goes labeledStatement
        ⟨((labeled label body).shape lead tail).source ++ more, .operator, made⟩ ()
        ⟨more, .operator, (labeled label body).shape lead tail :: made⟩ := by
      rw [hsource]
      refine goes_nodeOf hl ((goes_name hl label hlead.leads (hsettled tail more) _ _ _ _).bind ?_)
      refine (goes_expect hl hcolon).bind ?_
      exact hbody.goes_in hdepth body.takes_nil (hnext h) .body _ _
    rw [hsource] at hstatement ⊢
    refine (goes_look_behind _ _ _ _ (hread .exprStart rfl hlead.leads tail more)).bind ?_
    change (atDepth limits depth).Goes (wordStatement _) _ _ _
    rw [hword]
    refine (goes_nextDeclaration?_label hname hcolon.ahead _ _).bind ?_
    refine (goes_ahead 1 _ _ _).bind
      (.of_pos ?_ ((goes_ahead 2 _ _ _).bind (.of_pos ?_ hstatement)))
    · rw [hsecond.glimpseAt, hcolon.glimpse]
      rfl
    · rw [hthird]
      exact hopens.first

omit hl in
/-- The word `var` is a declaration. -/
theorem goes_nextDeclaration?_var {E : Setting} {lead : List Trivia} (hlead : Leads lead)
    {more : Text} (hmore : more.Settled) (mode : Mode) (made : List Shape) :
    E.Goes nextDeclaration? ⟨(word .varKw lead gap).source ++ more, mode, made⟩ (some .varKw)
      ⟨(word .varKw lead gap).source ++ more, .operator, made⟩ := by
  have hread := Mode.operator.reads_keyword (k := .varKw) rfl (by decide) hlead hmore
  have hword : E.Goes (declarationWord? (15 + 1) 0)
      ⟨(word .varKw lead gap).source ++ more, .operator, made⟩ (some .varKw)
      ⟨(word .varKw lead gap).source ++ more, .operator, made⟩ := by
    refine (goes_ahead 0 _ _ _).bind ?_
    rw [Text.glimpseAt_zero, hread.glimpse]
    refine .of_neg (by simp) ?_
    rw [Kind.ofWord?_text (by decide)]
    exact goes_pure _ _
  exact Goes.of_ahead hword mode

theorem legible_declaration (d : Declarator) (ds : List Declarator) (ending : Ending) :
    (declaration d ds ending).IsLegible limits (Declarator.levelsAll (d :: ds)) := by
  have hsettled (more : Text) := settled_of_solid (solid_declarators false d ds more)
  refine .of_keyword (k := .varKw) (by decide)
    (fun tail => Declarator.shapesAll false (d :: ds) ++ ending.shapes tail) (fun _ _ => rfl)
    (fun g h => by rw [wordStatement, h]) (fun tail more h => ?_)
    fun depth hdepth tail more h lead hlead made => ?_
  · rw [sourceAll_append, List.append_assoc]
    exact hsettled _
  · have hends := ending.endsContents h.closes
    rw [sourceAll_append, List.append_assoc]
    have hread := Mode.operator.reads_keyword (k := .varKw) rfl (by decide) hlead
      (hsettled (sourceAll (ending.shapes tail) ++ more))
    have hmodifiers : (atDepth limits depth).Goes (modifiers .varKw)
        ⟨(word .varKw lead gap).source ++ (sourceAll (Declarator.shapesAll false (d :: ds)) ++
          (sourceAll (ending.shapes tail) ++ more)), .operator, []⟩ ()
        ⟨(word .varKw lead gap).source ++ (sourceAll (Declarator.shapesAll false (d :: ds)) ++
          (sourceAll (ending.shapes tail) ++ more)), .operator, []⟩ := by
      refine goes_loop (.last ((goes_look_behind _ _ _ _ hread).bind (.of_pos ?_ (goes_pure _ _))))
      simp [Kind.spells_iff (k := .varKw) (by decide)]
    have hbody : (atDepth limits depth).Goes (variableBody .varKw)
        ⟨(word .varKw lead gap).source ++ (sourceAll (Declarator.shapesAll false (d :: ds)) ++
          (sourceAll (ending.shapes tail) ++ more)), .operator, []⟩ ()
        ⟨more, .operator, (word .varKw lead gap :: (Declarator.shapesAll false (d :: ds) ++
          ending.shapes tail)).reverse⟩ := by
      rw [List.reverse_cons, List.reverse_append, List.append_assoc]
      refine (goes_takeWord hl hread _ _).bind ?_
      exact (goes_declarators hl hends (fun hno => absurd hno Bool.false_ne_true) rfl d ds hdepth _
        _).bind (goes_ending hl ending h.closes _ _)
    have hmade : (atDepth limits depth).Goes (declarationBody .varKw)
        ⟨(word .varKw lead gap).source ++ (sourceAll (Declarator.shapesAll false (d :: ds)) ++
          (sourceAll (ending.shapes tail) ++ more)), .operator, []⟩ .variableDecl
        ⟨more, .operator, (word .varKw lead gap :: (Declarator.shapesAll false (d :: ds) ++
          ending.shapes tail)).reverse⟩ := hmodifiers.bind (hbody.bind (goes_pure _ _))
    exact (goes_nextDeclaration?_var hlead (hsettled _) _ _).bind
      (goes_node hl (hmade.bind (goes_pure _ _)))

end Stmt

end ActionScript
