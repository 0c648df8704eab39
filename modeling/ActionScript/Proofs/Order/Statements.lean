import ActionScript.Proofs.Order.Declarations

/-!
# Statements are orderly

Each statement opens with a token of its own, or is a declaration, an expression or a labeled
statement.  Only where the name of an import is missing a closing brace may be lost.

* `Parser.Anew`: a parser adds a node or a token before it turns to what stands there already.
* `Setting.orders_statementRule`: statements are orderly.
* `Setting.ordered_atDepth`: **the rules make orderly nodes**, at every depth.
-/

set_option autoImplicit false

namespace ActionScript

open ActionScript.Parser ActionScript.Grammar

/-! ## What is made anew -/

namespace Parser

/-- The parser adds to the open node before it turns to the last child, or its value is as `Q`
says. -/
def Anew : {α : Type} → Parser α → (α → Prop) → Prop
  | _, .done value, Q => Q value
  | _, .andThen first next, Q => Anew first fun value => Anew (next value) Q
  | _, .look _, Q => ∀ g, Q g
  | _, .ahead _, Q => ∀ g, Q g
  | _, .report _, Q => Q ()
  | _, .require .., Q => Q ()
  | _, .wrap .., _ => False
  | _, .label _, _ => False
  | _, .loop _, _ => False
  | _, _, _ => True

section
variable {α β : Type} {Q : α → Prop}

@[simp] theorem anew_pure {a : α} : (pure a : Parser α).Anew Q ↔ Q a := Iff.rfl
@[simp] theorem anew_bind {p : Parser β} {f : β → Parser α} :
    (p >>= f).Anew Q ↔ p.Anew fun value => (f value).Anew Q := Iff.rfl
@[simp] theorem anew_look {mode : Mode} {Q : Glimpse → Prop} :
    (look mode).Anew Q ↔ ∀ g, Q g := Iff.rfl
@[simp] theorem anew_ahead {n : Nat} {Q : Glimpse → Prop} : (ahead n).Anew Q ↔ ∀ g, Q g := Iff.rfl
@[simp] theorem anew_report {error : SyntaxError} {Q : Unit → Prop} :
    (report error).Anew Q ↔ Q () := Iff.rfl
@[simp] theorem anew_node (body : Parser (Kind × α)) : (node body).Anew Q := trivial
@[simp] theorem anew_nodeOf (kind : Kind) (body : Parser Unit) (Q : Unit → Prop) :
    (nodeOf kind body).Anew Q :=
  trivial
@[simp] theorem anew_take (field : Option Field) (Q : Unit → Prop) : (take field).Anew Q := trivial
@[simp] theorem anew_call (rule : Rule) (Q : Unit → Prop) : (call rule).Anew Q := trivial

@[simp] theorem anew_ite {c : Prop} [Decidable c] {p r : Parser α} :
    (if c then p else r).Anew Q ↔ (c → p.Anew Q) ∧ (¬c → r.Anew Q) := by
  split <;> simp [*]

theorem Anew.of_onlyLooks {p : Parser α} (h : p.OnlyLooks) (hQ : ∀ value, Q value) : p.Anew Q := by
  induction p with
  | andThen first next ihFirst ihNext => exact ihFirst h.1 fun value => ihNext value (h.2 value) hQ
  | done value => exact hQ value
  | ahead distance => exact hQ
  | _ => exact h.elim

@[simp] theorem anew_missing (error : SyntaxError) (Q : Unit → Prop) : (missing error).Anew Q := by
  simp [missing]
@[simp] theorem anew_reject (error : SyntaxError) (Q : Unit → Prop) : (reject error).Anew Q := by
  simp [reject, sees, peek, leaf]
@[simp] theorem anew_rejectUnless (stops : KindSet) (error : SyntaxError) (Q : Unit → Prop) :
    (rejectUnless stops error).Anew Q := by
  simp [rejectUnless, peek]

@[simp] theorem anew_wordOperand (g : Glimpse) (Q : Unit → Prop) : (wordOperand g).Anew Q := by
  unfold wordOperand
  split <;> simp [leaf, wordLeaf, functionExpression]

@[simp] theorem anew_operand (Q : Unit → Prop) : operand.Anew Q := by
  simp only [operand, anew_bind, anew_look]
  intro g
  split
  case h_8 =>
    rw [anew_bind]
    exact .of_onlyLooks (Setting.onlyLooks_closesVector 32 1 1) (by simp)
  all_goals simp [leaf, objectLiteral]

@[simp] theorem anew_plainWordStatement (Q : Unit → Prop) : plainWordStatement.Anew Q := by
  rw [plainWordStatement, anew_bind]
  refine .of_onlyLooks (Setting.onlyLooks_declarationWord? _ _) fun keyword => ?_
  cases keyword <;> simp [declaration, labeledStatement, expressionStatement]

@[simp] theorem anew_wordStatement (g : Glimpse) (Q : Unit → Prop) : (wordStatement g).Anew Q := by
  unfold wordStatement
  split <;> simp [ifStatement, switchStatement, forStatement, whileStatement, doStatement,
    withStatement, tryStatement, jumpStatement, valueStatement, importStatement, includeDirective,
    packageDeclaration, useNamespaceDirective]

@[simp] theorem anew_statementRule (Q : Unit → Prop) : statementRule.Anew Q := by
  simp only [statementRule, anew_bind, anew_look]
  intro g
  split
  case h_3 =>
    rw [anew_bind]
    exact .of_onlyLooks Setting.onlyLooks_seesAnnotatedDeclaration
      (by simp [annotated, expressionStatement])
  all_goals simp [block, braced, sees, peek, leaf, expressionStatement]

/-- **Every rule makes its node anew.** -/
theorem anew_rule (rule : Rule) (Q : Unit → Prop) : (Grammar.rule rule).Anew Q := by
  cases rule with
  | statement => exact anew_statementRule Q
  | expression min r => simp [Grammar.rule, expressionRule]
  | unary =>
    simp only [Grammar.rule, unaryRule, anew_bind, anew_look]
    intro g
    split <;> simp [chained]
  | construction => simp [Grammar.rule, constructionRule]
  | type =>
    simp only [Grammar.rule, typeRule, anew_bind, anew_look]
    intro g
    split <;> simp [leaf, wordLeaf, typeName]
  | element => simp [Grammar.rule, elementRule]

end

end Parser

namespace Setting

variable [Alphabet] {E : Setting} {q : Prop} {l : Bool} {s : State} {α β : Type}

/-- **What a parser makes anew is in order**, whatever stands there already. -/
theorem over_of_anew (hE : E.Ordered q) {p : Parser α} {Q : α → Prop} (hnew : p.Anew Q)
    (hp : E.Orders q true p s) (ht : (E.after p s).Calm q) :
    (E.after p s).Over q true s.children ∨
    ((E.after p s).children = s.children ∧ Q (E.val p s)) := by
  have hone {s t : State} {c : Shape} (hchildren : t.children = c :: s.children)
      (hc : c.Every (Shape.Orderly q) ∧ (true = true → c.Common q)) : t.Over q true s.children :=
    ⟨[c], hchildren, fun hnil => (by cases hnil), List.forall_mem_singleton.2 hc⟩
  induction p generalizing s with
  | done value => exact .inr ⟨rfl, hnew⟩
  | andThen first next ihFirst ihNext =>
    obtain ⟨hfirst, hnext⟩ := orders_bind.1 hp
    rcases ihFirst hnew hfirst ((E.leads_after _ _).calm ht) with hover | ⟨hsame, hvalue⟩
    · exact .inl (over_after (p := next (E.val first s)) hE hnext hover ht)
    · have hlast := ihNext _ hvalue hnext ht
      rwa [hsame] at hlast
  | look mode => exact .inr ⟨rfl, hnew _⟩
  | ahead distance => exact .inr ⟨rfl, hnew _⟩
  | take field => exact .inl (hone (State.takeAs_children _ _ _ _) (common_take hp ht))
  | takeWord keyword field => exact .inl (hone (State.takeAs_children _ _ _ _) (common_takeWord hp))
  | report error => exact .inr ⟨State.report_children _ _, hnew⟩
  | node body =>
    have hinner := ht.of_close
    exact .inl (hone (State.close_children _ _ _)
      (common_node hp
        (fun strict hbody => over_after hE hbody (State.over_enter_nil _) hinner) hinner))
  | call rule =>
    obtain ⟨kind, kids, hchildren, hevery, hcommon⟩ := hE rule s hp ht
    exact .inl (hone hchildren ⟨hevery, fun _ => hcommon⟩)
  | require mode kind => exact .inr ⟨rfl, hnew⟩
  | _ => exact hnew.elim

/-! ## Imports -/

/-- What is added at the end of a statement is common. -/
theorem exists_semicolon (hE : E.Ordered q) (ht : (E.after semicolon s).Calm q) :
    ∃ top, (E.after semicolon s).children = top ++ s.children ∧ ∀ c ∈ top, c.Common q := by
  have hnew : semicolon.Anew fun _ => True := by
    simp [semicolon, eat, sees, peek, when, skipStatement]
  rcases over_of_anew hE hnew orders_semicolon ht with ⟨top, htop, -, hcommon⟩ | ⟨hsame, -⟩
  · exact ⟨top, htop, fun c hc => (hcommon c hc).2 rfl⟩
  · exact ⟨[], hsame, fun _ hc => absurd hc List.not_mem_nil⟩

/-- A dotted name, or the error node in its place, stands in its slot. -/
theorem exists_qualifiedName (field : Field) (wildcard : Bool) : ∃ kind kids,
    (E.after (qualifiedName field wildcard) s).children = .node kind (some field)
      kids :: s.children ∧
      kind ≠ .propertyAttribute := by
  obtain ⟨kind, kids, hmakes, hkind⟩ : ∃ kind kids, (E.after (if E.val (sees .name) s then
      nodeOf .qualifiedName (do
        take none
        nameTail wildcard)
      else rejectUnless (.single .lCurly) .expectedName) (s.inMode .operator)).children =
        .node kind none kids :: s.children ∧ kind ≠ .propertyAttribute := by
    split
    · exact ⟨_, _, State.close_children _ _ _, by decide⟩
    · obtain ⟨kind, kids, hmakes⟩ :=
        makes_rejectUnless (E := E) (s := s.inMode .operator) (.single .lCurly) .expectedName
      obtain ⟨other, more, outer, hend, hother⟩ := exists_end (E := E) (s := s.inMode .operator)
        (p := rejectUnless (.single .lCurly) .expectedName) (Q := (· ≠ .propertyAttribute))
          (by simp [rejectUnless])
      rw [hmakes] at hend
      obtain ⟨rfl, -, -⟩ := Shape.node.inj (List.cons.inj hend).1
      exact ⟨kind, kids, hmakes, hother⟩
  exact ⟨kind, kids, State.labelLast_children _ _ hmakes, hkind⟩

/-- **An import** is orderly, except that a closing brace may stand where its name is missing. -/
theorem orders_importStatement (hE : E.Ordered q) : E.Orders q l importStatement s := by
  rw [importStatement]
  refine orders_nodeOf_uncommon false (by decide) ?_ fun hcalm _ => ?_
  · exact ⟨orders_takeWord.2 fun _ => by decide, orders_qualifiedName fun hl => (by cases hl),
      orders_semicolon⟩
  · have hopening := openWith_after (E := E) (p := semicolon)
        (openWith_after (E := E) (p := qualifiedName .name true)
      (openWith_takeAs (E := E) (s := s) .importKw none))
    rw [after_bind, after_bind, after_takeWord] at hcalm ⊢
    generalize ht : (s.enter E.limits []).takeAs E.limits .importKw none = t at hcalm hopening ⊢
    have htoken : t.children = [.token .importKw none (s.enter E.limits []).token.leading
        (s.enter E.limits []).token.text (s.enter E.limits []).token.trailing] := by
      rw [← ht, State.takeAs_children, State.enter_children]
    obtain ⟨top, htop, hcommon⟩ := exists_semicolon hE hcalm
    obtain ⟨kind, kids, hname, hkind⟩ := exists_qualifiedName (E := E) (s := t) .name true
    rw [htop, hname, htoken] at hopening ⊢
    have hkids : ∀ c ∈ (top ++ Shape.node kind (some .name) kids :: [Shape.token .importKw none
        (s.enter E.limits []).token.leading (s.enter E.limits []).token.text
        (s.enter E.limits []).token.trailing]).reverse,
        c.isToken .rCurly = false ∧ c.isNode .propertyAttribute = false ∧
          (q → c.Spares ∨ c.slot? = some .name) := by
      intro c hc
      rcases List.mem_append.1 (List.mem_reverse.1 hc) with hc | hc
      · have hc := hcommon c hc
        exact ⟨hc.brace, hc.qualifier, fun hq => .inl (hc.error hq)⟩
      · rcases List.mem_cons.1 hc with rfl | hc
        · exact ⟨rfl, by simpa [Shape.isNode] using hkind, fun _ => .inr rfl⟩
        · obtain rfl := List.mem_singleton.1 hc
          exact ⟨rfl, rfl, fun _ => .inl trivial⟩
    refine
      ⟨⟨fun _ before c behind heq htoken => ?_, fun hq c hc => ?_, fun _ c hc => (hkids c hc).2.1,
      fun _ h => (by cases h), fun k hk => ?_⟩, fun _ => ⟨rfl, rfl, fun _ h => (by cases h)⟩⟩
    · rw [(hkids c (heq ▸ by simp)).1] at htoken
      cases htoken
    · exact ((hkids c hc).2.2 hq).imp_right fun hslot => ⟨rfl, hslot⟩
    · cases hk
      exact hopening

/-- A directive that opens with its keyword. -/
theorem orders_includeDirective : E.Orders q l includeDirective s := by
  rw [includeDirective]
  refine orders_opened_takeWord rfl (by decide) fun t => ?_
  simp only [orders_bind, orders_sees, val_sees, after_sees, orders_ite, orders_missing,
    orders_label, orders_semicolon, true_and, and_true, implies_true, beq_iff_eq]
  exact fun h => orders_leaf (by decide) (State.sees_ne_of_kind h (by decide))

theorem orders_useNamespaceDirective : E.Orders q l useNamespaceDirective s := by
  rw [useNamespaceDirective]
  refine orders_opened_takeWord rfl (by decide) fun t => ?_
  simp

theorem orders_packageDeclaration (hE : E.Ordered q) : E.Orders q l packageDeclaration s := by
  rw [packageDeclaration]
  refine orders_opened_takeWord rfl (by decide) fun t => ?_
  simp only [orders_bind, orders_sees, val_sees, after_sees, orders_when, orders_label,
    orders_block hE, true_and, and_true, beq_iff_eq]
  exact fun hname => orders_qualifiedName fun _ _ _ => by simp [hname]

/-! ## Statements -/

@[simp] theorem orders_statementIn (field : Field) : E.Orders q l (statementIn field) s :=
  orders_callIn.2 trivial

@[simp] theorem orders_expressionStatement : E.Orders q l expressionStatement s := by
  rw [expressionStatement, orders_nodeOf (by decide)]
  exact ⟨orders_expression _, orders_semicolon⟩

@[simp] theorem orders_parenthesized (field : Field) : E.Orders q l (parenthesized field) s := by
  simp [parenthesized]

theorem orders_ifStatement : E.Orders q l ifStatement s := by
  rw [ifStatement]
  refine orders_opened_takeWord rfl (by decide) fun t => ?_
  simp only [orders_bind, orders_parenthesized, orders_statementIn, true_and]
  exact orders_clause? (by decide) (by decide) fun _ => orders_statementIn _

@[simp] theorem orders_clauseStatements : E.Orders q l clauseStatements s := by
  intro t
  simp

theorem orders_switchClause {g : Glimpse} (h : s.place.ahead ≠ .rCurly) :
    E.Orders q l (switchClause g) s := by
  unfold switchClause
  split
  · rw [orders_nodeOf (by decide)]
    simp
  · split
    · rw [orders_nodeOf (by decide)]
      simp
    · exact orders_reject fun _ _ _ => h

theorem orders_switchStatement (hE : E.Ordered q) : E.Orders q l switchStatement s := by
  rw [switchStatement]
  refine orders_opened_takeWord rfl (by decide) fun t => ?_
  simp only [orders_bind, orders_parenthesized, orders_sees, val_sees, after_sees, orders_ite,
    orders_missing, orders_label, true_and, and_true, implies_true, beq_iff_eq]
  generalize E.after (parenthesized .value) t = t
  intro hcurly
  have hsees : (t.inMode .operator).Sees (·.kind ≠ .rCurly) :=
    State.sees_ne_of_kind hcurly (by decide)
  have hclauses (l : Bool) (u : State) : E.Orders q l (do
      let g ← look .operator
      if g.kind == .rCurly || g.kind == .eof then return false
      else
        switchClause g
        return true) u := by
    simp only [orders_bind, orders_look, val_look, after_look, orders_ite, orders_pure,
      and_true, true_and, implies_true, glimpse_kind, Place.next_operator_kind, Bool.or_eq_true,
      beq_iff_eq, not_or]
    exact fun h => orders_switchClause h.1
  refine orders_closed hE (do
      take none
      loop do
        let g ← look .operator
        if g.kind == .rCurly || g.kind == .eof then return false
        else
          switchClause g
          return true) .operator (by decide) ?_ ?_ ?_ fun _ k hk => (by cases hk)
  · exact ⟨orders_take_lax none, hclauses false, orders_expect fun hl => (by cases hl)⟩
  · exact ⟨fun _ => hsees.enter _ _, hclauses true⟩
  · simp only [expect, after_bind, after_pure]

theorem orders_forHead (hE : E.Ordered q) : E.Orders q l forHead s := by
  simp [forHead, orders_variableHead hE, Rule.Clear]

theorem orders_forStatement (hE : E.Ordered q) : E.Orders q l forStatement s := by
  rw [forStatement]
  have hopening (next : Unit → Parser (Kind × Unit)) : Shape.OpenWith .forKw (E.after
      (takeWord .forKw none >>= next) (s.enter E.limits [])).children.reverse :=
    openWith_after (p := next ()) (openWith_takeAs _ _)
  refine orders_node_opened ?_ ?_ fun _ => hopening _
  · simp only [val_bind, val_ite, val_pure]
    split
    · split <;> rfl
    · rfl
  · simp [orders_forHead hE]

theorem orders_whileStatement : E.Orders q l whileStatement s := by
  rw [whileStatement]
  exact orders_opened_takeWord rfl (by decide) fun t => by simp

theorem orders_doStatement : E.Orders q l doStatement s := by
  rw [doStatement]
  exact orders_opened_takeWord rfl (by decide) fun t => by simp

theorem orders_withStatement : E.Orders q l withStatement s := by
  rw [withStatement]
  exact orders_opened_takeWord rfl (by decide) fun t => by simp

theorem orders_bodyBlock (hE : E.Ordered q) : E.Orders q l bodyBlock s := by
  simp [bodyBlock, orders_block hE]

theorem orders_catchClauses (hE : E.Ordered q) : E.Orders q l catchClauses s := by
  intro t
  simp only [catchClause, orders_bind, orders_seesWord, orders_ite, orders_label,
    orders_pure, true_and, and_true, implies_true]
  intro _
  rw [orders_nodeOf (by decide)]
  simp [orders_bodyBlock hE]

theorem orders_tryStatement (hE : E.Ordered q) : E.Orders q l tryStatement s := by
  rw [tryStatement]
  refine orders_opened_takeWord rfl (by decide) fun t => ?_
  simp only [orders_bind, orders_bodyBlock hE, orders_seesWord, orders_catchClauses hE, orders_when,
    orders_report, true_and, and_true, implies_true]
  exact orders_clause? (by decide) (by decide) fun _ => orders_bodyBlock hE

theorem orders_jumpStatement {keyword kind : Kind} (hopener : kind.opener? = some keyword)
    (hkey : keyword ≠ .rCurly) : E.Orders q l (jumpStatement keyword kind) s := by
  rw [jumpStatement]
  exact orders_opened_takeWord hopener hkey fun t => by simp

theorem orders_valueStatement {keyword kind : Kind} (hopener : kind.opener? = some keyword)
    (hkey : keyword ≠ .rCurly) : E.Orders q l (valueStatement keyword kind) s := by
  rw [valueStatement]
  exact orders_opened_takeWord hopener hkey fun t => by simp

theorem orders_labeledStatement : E.Orders q l labeledStatement s := by
  rw [labeledStatement, orders_nodeOf (by decide)]
  simp

theorem orders_plainWordStatement (hE : E.Ordered q) : E.Orders q l plainWordStatement s := by
  rw [plainWordStatement, orders_bind, after_nextDeclaration?]
  refine ⟨orders_of_onlyLooks (onlyLooks_declarationWord? _ _), ?_⟩
  split
  · rename_i keyword hnext
    obtain ⟨hkey, hleads⟩ := leadsTo_of_nextDeclaration? hnext
    exact orders_declaration hE hkey fun _ => hleads
  · simp [orders_labeledStatement]

theorem orders_wordStatement (hE : E.Ordered q) {g : Glimpse} (h : s.place.ahead ≠ .rCurly) :
    E.Orders q l (wordStatement g) s := by
  have hreject (error : SyntaxError) : E.Orders q l (reject error) s := orders_reject fun _ _ _ => h
  unfold wordStatement
  split
  · exact orders_ifStatement
  · exact orders_switchStatement hE
  · exact orders_forStatement hE
  · exact orders_whileStatement
  · exact orders_doStatement
  · exact orders_withStatement
  · exact orders_tryStatement hE
  · exact orders_jumpStatement rfl (by decide)
  · exact orders_jumpStatement rfl (by decide)
  · exact orders_valueStatement rfl (by decide)
  · exact orders_valueStatement rfl (by decide)
  · exact orders_importStatement hE
  · exact orders_includeDirective
  · exact orders_packageDeclaration hE
  · refine ⟨trivial,
      orders_ite.2 ⟨fun _ => orders_useNamespaceDirective, fun _ => orders_plainWordStatement hE⟩⟩
  · exact hreject _
  · exact hreject _
  · exact hreject _
  · exact hreject _
  · exact hreject _
  · exact orders_plainWordStatement hE

/-- **Statements are orderly.** -/
theorem orders_statementRule (hE : E.Ordered q) : E.Orders q true statementRule s := by
  have hahead {k : Kind} (h : (s.place.next .exprStart).1.kind = k) (hk : k ≠ .rCurly) :
      s.place.ahead ≠ .rCurly :=
    fun hcurly => hk (by rw [← h]; exact Place.exprStart_of_ahead hcurly (by decide))
  have hreject {k : Kind} (h : (s.place.next .exprStart).1.kind = k) (hk : k ≠ .rCurly)
      (error : SyntaxError) :
      E.Orders q true (reject error) (s.inMode .exprStart) := orders_reject fun _ _ _ => hahead h hk
  simp only [statementRule, orders_bind, orders_look, val_look, after_look, true_and, glimpse_kind]
  split
  · exact orders_block hE
  · rename_i hsemi
    have hsees : (s.inMode .exprStart).Sees (·.kind = .semicolon) := fun _ => hsemi
    refine orders_opened rfl (fun _ => (hsees.enter _ _).mono fun t ht => by simp [ht]) fun ha => ?_
    have ha := (State.Leads.takeAs _ E.limits _ none).aborted ha
    obtain hkind := hsees.enter E.limits [] ha
    rw [after_take, hkind]
    exact openWith_takeAs _ _
  · refine ⟨orders_of_onlyLooks onlyLooks_seesAnnotatedDeclaration, ?_⟩
    simp [orders_annotated hE]
  · exact orders_wordStatement hE (hahead ‹_› (by decide))
  · exact orders_missing _
  · exact orders_missing _
  · exact hreject ‹_› (by decide) _
  · exact hreject ‹_› (by decide) _
  · exact hreject ‹_› (by decide) _
  · exact orders_expressionStatement

/-! ## All rules -/

/-- What is rejected is reported. -/
theorem exists_report_of_reject {error : SyntaxError}
    (ha : (E.after (reject error) s).aborted = none) :
    ∃ d ∈ (E.after (reject error) s).reports, d.cause = .syntactic error := by
  have hreport {p : Parser Unit}
      (hrest : E.after (reject error) s = E.after p ((s.inMode .operator).report error)) :
      ∃ d ∈ (E.after (reject error) s).reports, d.cause = .syntactic error := by
    have hgrows := E.leads_after p ((s.inMode .operator).report error)
    rw [← hrest] at hgrows
    have hcalm : s.aborted = none := by simpa using hgrows.aborted ha
    refine ⟨⟨.syntactic error, (s.inMode .operator).token.span⟩, hgrows.reports.subset ?_, rfl⟩
    simp [State.report, hcalm]
  by_cases heof : s.place.ahead = .eof
  · exact hreport (p := nodeOf .error (pure ())) (by simp [reject, missing, heof])
  · exact hreport (p := leaf .error) (by simp [reject, heof])

/-- A common, orderly node is made. -/
theorem exists_node_of_anew (hE : E.Ordered q) {p : Parser Unit} (hnew : p.Anew fun _ => False)
    (hp : E.Orders q true p s) (hmakes : s.Makes (E.after p s)) (ht : (E.after p s).Calm q) :
    ∃ kind kids, (E.after p s).children = .node kind none kids :: s.children ∧
      (Shape.node kind none kids).Every (Shape.Orderly q) ∧
      (Shape.node kind none kids).Common q := by
  obtain ⟨kind, kids, hchildren⟩ := hmakes
  rcases over_of_anew hE hnew hp ht with ⟨top, htop, -, hcommon⟩ | ⟨-, h⟩
  · have htop : top = [.node kind none kids] := List.append_cancel_right (htop.symm.trans hchildren)
    obtain ⟨hevery, hcommon⟩ := hcommon _ (htop ▸ List.mem_singleton_self _)
    exact ⟨kind, kids, hchildren, hevery, hcommon rfl⟩
  · exact h.elim

/-- **The rules make common, orderly nodes**, at every depth. -/
theorem ordered_atDepth (limits : Limits) (depth : Nat) : (atDepth limits depth).Ordered q := by
  induction depth with
  | zero =>
    intro rule s _ ht
    change (State.apply limits 0 rule s).Calm q at ht
    change ∃ kind kids, (State.apply limits 0 rule s).children = _ ∧ _
    rw [apply_zero] at ht ⊢
    by_cases hq : q
    · obtain ⟨d, hd, hcause⟩ := exists_report_of_reject ht.aborted
      exact absurd hcause (ht.reports hq d hd)
    · exact exists_node_of_anew (fun _ _ _ hcalm => by cases hcalm.aborted) (anew_reject _ _)
        (orders_reject fun _ h => absurd h hq) (makes_reject _) ht
  | succ depth ih =>
    intro rule s hclear ht
    rw [atDepth_succ] at ht ⊢
    refine exists_node_of_anew ih (anew_rule rule fun _ => False) ?_ (makes_rule rule) ht
    cases rule with
    | statement => exact orders_statementRule ih
    | expression min r => exact orders_expressionRule min r
    | unary => exact orders_unaryRule ih
    | construction => exact orders_constructionRule ih
    | type => exact orders_typeRule
    | element => exact orders_elementRule ih hclear

end Setting

end ActionScript
