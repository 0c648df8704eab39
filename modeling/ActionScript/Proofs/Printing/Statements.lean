import ActionScript.Proofs.Printing.Clauses
import ActionScript.Proofs.Printing.Variables

/-!
# Statements are read again

Each form of statement is legible if what it is made of is.  What stands behind the last statement
inside of it is what stands behind the whole, so what is known of the one carries over to the other.

* `Stmt.IsLegible.of_keyword`, `Stmt.IsLegible.of_node`: statements that open with a keyword.
* `Stmt.legible_expression`: what opens with a name is told from a declaration and from a label.
* `Stmt.legible_whileLoop` and its like: **one lemma for each form of statement.**
-/

set_option autoImplicit false

namespace ActionScript

open ActionScript.Parser ActionScript.Grammar Trivia

namespace Stmt

open Setting Shape

variable [Alphabet] {limits : Limits} {m n : Nat} {s : Stmt} {lead tail : List Trivia} {more : Text}

/-! ## Statements that open with a sign -/

/-- In front of a parenthesis or a semicolon no line breaks. -/
theorem Takes.eq_nil {t : Text} (h : s.Takes lead) (ht : s.tokens.head? = some t)
    (hsign : t = Kind.lParen.text ∨ t = Kind.semicolon.text) : lead = [] := by
  by_contra hne
  obtain ⟨hparen, hsemicolon⟩ := h.first hne t ht
  exact hsign.elim hparen hsemicolon

section
variable (hl : limits.Endless)
include hl

theorem legible_empty : IsLegible limits n empty := by
  have hread {tail : List Trivia} {more : Text} (hmore : empty.Followed tail more) (mode : Mode)
      (hmode : mode = .operator ∨ mode = .exprStart) :=
    Mode.reads_closing hmode (k := .semicolon) (by decide) (.inl rfl) hmore.closes
  have hnone {lead : List Trivia} (hlead : empty.Takes lead) : lead = [] :=
    hlead.eq_nil rfl (.inr rfl)
  refine ⟨fun lead hlead tail more hmore => ?_,
    fun depth _ lead hlead tail more hmore mode made => ?_⟩
  · obtain rfl := hnone hlead
    rw [shape, source, sourceAll, sourceAll, List.append_nil]
    refine Text.opensStatement_sign (by decide) (settled_of_solid ?_) (hread hmore _ (.inl rfl))
    exact solid_cons (by decide) (by decide) (by decide) _
  · obtain rfl := hnone hlead
    rw [shape, source, sourceAll, sourceAll, List.append_nil]
    have hsemicolon := hread hmore .exprStart (.inr rfl)
    exact (goes_look_reads _ _ _ _ hsemicolon).bind (goes_leaf hl hsemicolon .emptyStmt)

theorem legible_block {body : List Stmt} (h : AreLegible limits n body) :
    (block body).IsLegible limits (n + 1) := by
  have hsettled {tail : List Trivia} {more : Text} (hmore : Text.Behind tail more) :
      Text.Settled (sourceAll (shapesAll body [] gap) ++
        ((word .rCurly (leavesAll body [] gap) tail).source ++ more)) := by
    have hclose := leads_leavesAll body
    have hcurly := (Mode.reads_closing (.inl rfl) (k := .rCurly) (by decide) hclose hmore).ahead
    exact settled_shapesAll h (Text.resumes_rCurly hclose hmore)
      (Text.not_shows_of_ahead (by rw [hcurly]; decide) _)
  refine ⟨fun lead hlead tail more hmore => ?_,
    fun depth hdepth lead hlead tail more hmore mode made => ?_⟩
  · rw [shape, source_braces_append]
    exact Text.opensStatement_lCurly hlead.leads (hsettled hmore.closes)
  · have hbraces := goes_braced hl h hdepth hlead.leads hmore.closes .block .exprStart made
    have hread := Mode.reads_lCurly (.inr rfl) hlead.leads (hsettled hmore.closes)
    rw [source_braces_append] at hbraces
    rw [shape, source_braces_append]
    exact (goes_look_behind _ _ _ _ hread).bind hbraces

/-! ## Expressions as statements -/

omit hl in
/-- The statement of an expression begins with a name, behind which no colon stands, or with a
parenthesis. -/
theorem exists_beginning (e : Expr) :
    (∃ n us, e.firstName? = some n ∧ parenthesize (!e.opensPlainly) e.tokens = n.text :: us ∧
      us.head? ≠ some Kind.colon.text) ∨
    (∃ us, parenthesize (!e.opensPlainly) e.tokens = Kind.lParen.text :: us) := by
  cases hname : e.firstName? with
  | some n =>
    obtain ⟨us, htokens, hsecond⟩ := e.beginsWith_of_firstName? hname
    refine .inl ⟨n, us, rfl, ?_, hsecond⟩
    simp [Expr.opensPlainly, hname, parenthesize, htokens]
  | none =>
    refine .inr ?_
    cases hplain : e.opensPlainly with
    | false => exact ⟨_, rfl⟩
    | true =>
      obtain ⟨us, hus⟩ : ∃ us, e.tokens = Kind.lParen.text :: us := by
        have hhead : e.tokens.head? = some Kind.lParen.text := by
          simpa [Expr.opensPlainly, hname] using hplain
        exact List.head?_eq_some_iff.1 hhead
      exact ⟨us, hus⟩

omit hl in
theorem arePlain_of_cons {need : Bool} {e : Expr} {t : Text} {ts : List Text}
    (h : parenthesize need e.tokens = t :: ts) : Text.ArePlain ts := by
  have hall : Text.ArePlain (parenthesize need e.tokens) :=
    Text.arePlain_parenthesize.2 e.arePlain_tokens
  rw [h] at hall
  exact (Text.arePlain_cons.1 hall).2

/-- **What an expression statement holds is read again**, once it is known to be one. -/
theorem goes_expressionStatement {e : Expr} {ending : Ending} {depth : Nat}
    (hdepth : e.levels ≤ depth)
    (hlead : Leads lead) (hname : lead ≠ [] → e.firstName?.isSome = true)
    (hmore : Text.Closes (ending = .lineBreak) tail more) (mode : Mode) (made : List Shape) :
    (atDepth limits depth).Goes expressionStatement
      ⟨((expression e ending).shape lead tail).source ++ more, mode, made⟩ ()
      ⟨more, .operator, (expression e ending).shape lead tail :: made⟩ := by
  have hcontents := e.goes_contents hl hlead hname hdepth (ending.endsContents hmore) mode []
  have hending := goes_ending (E := atDepth limits depth) hl ending hmore .operator
    [((bracket (!e.opensPlainly) e.shape gap).led lead).withField .expression]
  simp only [shape, source, sourceAll, source_withField, List.append_assoc]
  refine goes_nodeOf hl (hcontents.bind ?_)
  rw [List.reverse_cons]
  exact hending

omit hl in
theorem source_expression_append (e : Expr) (ending : Ending) (lead tail : List Trivia)
    (more : Text) : ((expression e ending).shape lead tail).source ++ more =
      flatten lead ++ (spaced (parenthesize (!e.opensPlainly) e.tokens) [' '] ++
        (sourceAll (ending.shapes tail) ++ more)) := by
  simp [shape, source, sourceAll, source_led_bracket, flatten_gap]

/-- What opens with a name is told from a declaration and from a label by the tokens behind the
name. -/
theorem legible_expression_name {e : Expr} {n : Name} {us : List Text}
    (hname : e.firstName? = some n)
    (htokens : parenthesize (!e.opensPlainly) e.tokens = n.text :: us)
    (hsecond : us.head? ≠ some Kind.colon.text) (ending : Ending) :
    (expression e ending).IsLegible limits e.levels := by
  have hplain := arePlain_of_cons htokens
  have hends {tail : List Trivia} {more : Text}
      (hmore : (expression e ending).Followed tail more) :=
    ending.endsContents hmore.closes
  have hread (mode : Mode) (hcode : mode.isCode = true) {lead : List Trivia} (hlead : Leads lead)
      {tail : List Trivia} {more : Text} (hmore : (expression e ending).Followed tail more) :
      mode.ReadsBehind lead (((expression e ending).shape lead tail).source ++ more)
        .name n.text gap
        (spaced us [' '] ++ (sourceAll (ending.shapes tail) ++ more)) := by
    have hbehind := ends_gap_of_settled (Text.settled_spaced hplain (hends hmore).settled)
    rw [source_expression_append, htokens, spaced_cons_gap, List.append_assoc]
    exact Mode.ReadsBehind.of_leads hlead (Mode.reads_of_isWord hcode n.isWord_text hbehind) hcode
      (n.isWord_text.solid _)
  refine ⟨fun lead hlead tail more hmore => ?_,
    fun depth hdepth lead hlead tail more hmore mode made => ?_⟩
  · refine Text.opensStatement_name hlead.leads ?_ (hread _ rfl hlead.leads hmore)
    rw [source_expression_append, htokens, spaced_cons_gap, List.append_assoc]
    exact settled_of_leads hlead.leads (n.isWord_text.solid _)
  · have hstatement := goes_expressionStatement hl hdepth hlead.leads (fun _ => by rw [hname]; rfl)
      hmore.closes .operator made
    have hword (b : Bool) : wordStatement ⟨.name, n.text, b⟩ = plainWordStatement := by
      rw [wordStatement, n.isFree.1]
    refine (goes_look_behind _ _ _ _ (hread .exprStart rfl hlead.leads hmore)).bind ?_
    change (atDepth limits depth).Goes (wordStatement _) _ _ _
    rw [hword]
    refine goes_plainWordStatement (hread _ rfl hlead.leads hmore) hplain hsecond
      (hends hmore).settled
      (hends hmore).words ((hends hmore).ahead_ne _ (by decide)) hstatement _

/-- What opens with a parenthesis is an expression. -/
theorem legible_expression_paren {e : Expr} {us : List Text}
    (htokens : parenthesize (!e.opensPlainly) e.tokens = Kind.lParen.text :: us) (ending : Ending) :
    (expression e ending).IsLegible limits e.levels := by
  have hplain := arePlain_of_cons htokens
  have hnone {lead : List Trivia} (hlead : (expression e ending).Takes lead) : lead = [] :=
    hlead.eq_nil (by rw [tokens, htokens]; rfl) (.inl rfl)
  have hsource (tail : List Trivia) (more : Text) :
      ((expression e ending).shape [] tail).source ++ more = (sign .lParen none gap).source ++
        (spaced us [' '] ++ (sourceAll (ending.shapes tail) ++ more)) := by
    rw [source_expression_append, htokens, spaced_cons_gap, source_sign, flatten_gap]
    simp
  have hbehind {tail : List Trivia} {more : Text}
      (hmore : (expression e ending).Followed tail more) :=
    ends_gap_of_settled (Text.settled_spaced hplain (ending.endsContents hmore.closes).settled)
  refine ⟨fun lead hlead tail more hmore => ?_,
    fun depth hdepth lead hlead tail more hmore mode made => ?_⟩
  · obtain rfl := hnone hlead
    have hread := Mode.operator.reads_sign .lParen rfl (hbehind hmore) none
    have hsolid := Mode.operator.solid_sign .lParen rfl none gap
      (spaced us [' '] ++ (sourceAll (ending.shapes tail) ++ more))
    rw [hsource]
    exact Text.opensStatement_sign (by decide) (settled_of_solid hsolid) hread
  · obtain rfl := hnone hlead
    have hread := Mode.exprStart.reads_sign .lParen rfl (hbehind hmore) none
    rw [← hsource] at hread
    exact (goes_look_reads _ _ _ _ hread).bind <|
      goes_expressionStatement hl hdepth (.inl rfl) (fun hne => absurd rfl hne) hmore.closes _ made

/-- **Every expression statement is legible.** -/
theorem legible_expression (e : Expr) (ending : Ending) :
    (expression e ending).IsLegible limits e.levels := by
  rcases exists_beginning e with ⟨n, us, hname, htokens, hsecond⟩ | ⟨us, htokens⟩
  · exact legible_expression_name hl hname htokens hsecond ending
  · exact legible_expression_paren hl htokens ending

/-! ## Statements that open with a keyword -/

omit hl in
/-- A statement that opens with a keyword is legible if it is read again behind the keyword. -/
theorem IsLegible.of_keyword {k kind : Kind} (hk : k ∈ openingKeywords)
    (kids : List Trivia → List Shape)
    (hshape : ∀ lead tail, s.shape lead tail = .node kind none (word k lead gap :: kids tail))
    {p : Parser Unit} (hparser : ∀ g : Glimpse, Kind.ofWord? g.text = some k → wordStatement g = p)
    (hsettled : ∀ tail more, s.Followed tail more → Text.Settled (sourceAll (kids tail) ++ more))
    (hgoes : ∀ depth ≥ n, ∀ tail more, s.Followed tail more → ∀ lead, Leads lead → ∀ made,
      (atDepth limits depth).Goes p
        ⟨(word k lead gap).source ++ (sourceAll (kids tail) ++ more), .exprStart, made⟩ ()
        ⟨more, .operator, .node kind none (word k lead gap :: kids tail) :: made⟩) :
    s.IsLegible limits n := by
  have hmem := mem_statementKeywords hk
  have hsource (lead tail : List Trivia) (more : Text) : (s.shape lead tail).source ++ more =
      (word k lead gap).source ++ (sourceAll (kids tail) ++ more) := by
    rw [hshape, source, sourceAll, List.append_assoc]
  refine ⟨fun lead hlead tail more hmore => ?_,
    fun depth hdepth lead hlead tail more hmore mode made => ?_⟩
  · rw [hsource]
    exact Text.opensStatement_keyword hk hlead.leads (hsettled tail more hmore)
  · rw [hsource, hshape]
    refine goes_keyword hmem hlead.leads (hsettled tail more hmore) ?_ mode
    rw [hparser _ (Kind.ofWord?_text hmem)]
    exact hgoes depth hdepth tail more hmore lead hlead.leads made

/-- The same if the statement is one node from its keyword on. -/
theorem IsLegible.of_node {k kind : Kind} (hk : k ∈ openingKeywords)
    (kids : List Trivia → List Shape)
    (hshape : ∀ lead tail, s.shape lead tail = .node kind none (word k lead gap :: kids tail))
    {p : Parser Unit}
    (hparser : ∀ g : Glimpse, Kind.ofWord? g.text = some k → wordStatement g = nodeOf kind do
      takeWord k none
      p)
    (hsettled : ∀ tail more, s.Followed tail more → Text.Settled (sourceAll (kids tail) ++ more))
    (hgoes : ∀ depth ≥ n, ∀ tail more, s.Followed tail more → ∀ made,
      (atDepth limits depth).Goes p ⟨sourceAll (kids tail) ++ more, .operator, made⟩ ()
        ⟨more, .operator, (kids tail).reverse ++ made⟩) :
    s.IsLegible limits n := by
  have hmem := mem_statementKeywords hk
  refine .of_keyword hk kids hshape hparser
    hsettled fun depth hdepth tail more hmore lead hlead made => ?_
  refine goes_nodeOf hl ((goes_takeKeyword hl hmem hlead (hsettled tail more hmore) rfl []).bind ?_)
  rw [List.reverse_cons]
  exact hgoes depth hdepth tail more hmore _

/-! ## Conditions and loops -/

/-- `while` and `with` are read alike. -/
theorem IsLegible.of_enclosed {k kind : Kind} (hk : k ∈ openingKeywords) {field : Field} {e : Expr}
    {body : Stmt} (hbody : body.IsLegible limits n) (he : e.levels ≤ n + 1)
    (hshape : ∀ lead tail, s.shape lead tail = .node kind none
      (word k lead gap :: enclosed field e ++ [(body.shape [] tail).withField .body]))
    (hparser : ∀ g : Glimpse, Kind.ofWord? g.text = some k → wordStatement g = nodeOf kind do
      takeWord k none
      parenthesized field
      statementIn .body)
    (hnext : ∀ tail more, s.Followed tail more → body.Followed tail more) :
    s.IsLegible limits (n + 1) := by
  refine .of_node hl hk
    (fun tail => enclosed field e ++ [(body.shape [] tail).withField .body]) hshape
    hparser (fun tail more h => ?_) fun depth hdepth tail more h made => ?_
  · rw [sourceAll_append, List.append_assoc]
    exact settled_enclosed _ _ _
  · have hsettled := hbody.settled (hnext tail more h)
    simp only [sourceAll_append, sourceAll, source_withField, List.append_assoc, List.nil_append]
    refine (goes_enclosed hl e (by omega) hsettled _ _ _).bind ?_
    simpa using hbody.goes_in hdepth body.takes_nil (hnext tail more h) .body .operator
      ((enclosed field e).reverse ++ made)

theorem legible_whileLoop {condition : Expr} {body : Stmt} (hbody : body.IsLegible limits n)
    (hcondition : condition.levels ≤ n + 1) : (whileLoop condition body).IsLegible limits (n + 1) :=
  .of_enclosed hl (k := .whileKw) (by decide) hbody hcondition (fun _ _ => rfl)
    (fun g h => by rw [wordStatement, h]; rfl) fun _ _ h => ⟨h.closes, h.handlers, h.noElse⟩

theorem legible_withObject {object : Expr} {body : Stmt} (hbody : body.IsLegible limits n)
    (hobject : object.levels ≤ n + 1) : (withObject object body).IsLegible limits (n + 1) :=
  .of_enclosed hl (k := .withKw) (by decide) hbody hobject (fun _ _ => rfl)
    (fun g h => by rw [wordStatement, h]; rfl) fun _ _ h => ⟨h.closes, h.handlers, h.noElse⟩

/-! ### Conditions -/

/-- A statement that an `else` may come behind: in a block if it ends in an `if` that has none. -/
def guarded (s : Stmt) : Stmt := if s.endsInIf then block [s] else s

omit hl in
theorem shape_guarded (s : Stmt) (tail : List Trivia) :
    Shape.guard s.endsInIf (s.shape []) (s.leaves gap) tail = s.guarded.shape [] tail := by
  unfold Shape.guard guarded
  split <;> rfl

omit hl in
theorem endsInIf_guarded (s : Stmt) : s.guarded.endsInIf = false := by
  unfold guarded
  split
  · rfl
  · rename_i hends
    simpa using hends

omit hl in
theorem endsLine_guarded (s : Stmt) : s.guarded.endsLine = (!s.endsInIf && s.endsLine) := by
  unfold guarded
  split <;> rename_i hends <;> simp [hends, endsLine]

theorem IsLegible.guarded (h : s.IsLegible limits n) : s.guarded.IsLegible limits (n + 1) := by
  unfold Stmt.guarded
  split
  · exact legible_block hl ⟨List.forall_mem_singleton.2 h, s.takes_nil, trivial⟩
  · exact h.mono (Nat.le_succ n)

theorem legible_ifThen {condition : Expr} {s : Stmt} (hs : s.IsLegible limits n)
    (hcondition : condition.levels ≤ n + 2) : (ifThen condition s).IsLegible limits (n + 2) := by
  have hnext {tail : List Trivia} {more : Text} (h : (ifThen condition s).Followed tail more) :
      s.guarded.Followed tail more := by
    refine ⟨?_, h.handlers, fun hends => ?_⟩
    · rw [endsLine_guarded]
      exact h.closes
    · rw [endsInIf_guarded] at hends
      cases hends
  have hguarded := hs.guarded hl
  refine .of_node hl (k := .ifKw) (by decide)
    (fun tail => enclosed .condition condition ++
      [(Shape.guard s.endsInIf (s.shape []) (s.leaves gap) tail).withField .consequence])
    (fun _ _ => rfl) (fun g h => by rw [wordStatement, h]; rfl) (fun tail more h => ?_)
    fun depth hdepth tail more h made => ?_
  · rw [sourceAll_append, List.append_assoc]
    exact settled_enclosed _ _ _
  · simp only [shape_guarded, sourceAll_append, sourceAll, source_withField, List.append_assoc,
      List.nil_append]
    refine (goes_enclosed hl condition (by omega) (hguarded.settled (hnext h)) _ _ _).bind ?_
    refine (hguarded.goes_in hdepth s.guarded.takes_nil (hnext h) .consequence _ _).bind ?_
    simpa using goes_clause?_none (by decide) (h.noElse rfl) _ _ _ _ _

theorem legible_ifElse {condition : Expr} {s alternative : Stmt} (hs : s.IsLegible limits n)
    (halternative : alternative.IsLegible limits (n + 1)) (hcondition : condition.levels ≤ n + 2) :
    (ifElse condition s alternative).IsLegible limits (n + 2) := by
  have hnext {tail : List Trivia} {more : Text}
      (h : (ifElse condition s alternative).Followed tail more) : alternative.Followed tail more :=
    ⟨h.closes, h.handlers, h.noElse⟩
  have hguarded := hs.guarded hl
  have hleaves : (if s.endsInIf then [] else s.leaves gap) = s.guarded.leaves gap := by
    rw [leaves, leaves, endsLine_guarded]
    cases s.endsInIf <;> rfl
  have helse {tail : List Trivia} {more : Text}
      (h : (ifElse condition s alternative).Followed tail more) :
      s.guarded.Followed gap ((word .elseKw (s.guarded.leaves gap) gap).source ++
        ((alternative.shape [] tail).source ++ more)) := by
    refine followed_of_resumes (Text.resumes_keyword (by decide) (by decide) s.guarded.leads_leaves
      (halternative.settled (hnext h))) fun hends => ?_
    rw [endsInIf_guarded] at hends
    cases hends
  refine .of_node hl (k := .ifKw) (by decide)
    (fun tail => enclosed .condition condition ++
      [(Shape.guard s.endsInIf (s.shape []) (s.leaves gap) gap).withField .consequence,
        .node .elseClause (some .alternative)
          [word .elseKw (if s.endsInIf then [] else s.leaves gap) gap,
            (alternative.shape [] tail).withField .body]])
    (fun _ _ => rfl) (fun g h => by rw [wordStatement, h]; rfl) (fun tail more h => ?_)
    fun depth hdepth tail more h made => ?_
  · rw [sourceAll_append, List.append_assoc]
    exact settled_enclosed _ _ _
  · simp only [shape_guarded, hleaves, sourceAll_append, sourceAll, source, source_withField,
      List.append_assoc, List.nil_append, List.reverse_append, List.reverse_cons, List.reverse_nil,
      List.cons_append]
    refine (goes_enclosed hl condition (by omega) (hguarded.settled (helse h)) _ _ _).bind ?_
    refine (hguarded.goes_in hdepth s.guarded.takes_nil (helse h) .consequence _ _).bind ?_
    exact goes_clause? hl (by decide) s.guarded.leads_leaves (halternative.settled (hnext h))
      (halternative.goes_in hdepth alternative.takes_nil (hnext h) .body .operator _) _ _

/-! ### `do` -/

theorem legible_doLoop {body : Stmt} {condition : Expr} (hbody : body.IsLegible limits n)
    (hcondition : condition.levels ≤ n + 1) (ending : Ending) :
    (doLoop body condition ending).IsLegible limits (n + 1) := by
  have hrest (tail : List Trivia) (more : Text) : Text.Settled
      (sourceAll (enclosed .condition condition) ++ (sourceAll (ending.shapes tail) ++ more)) :=
    settled_enclosed _ _ _
  have hnext (tail : List Trivia) (more : Text) : body.Followed gap
      ((word .whileKw (body.leaves gap) gap).source ++
        (sourceAll (enclosed .condition condition) ++
          (sourceAll (ending.shapes tail) ++ more))) := by
    refine followed_of_resumes (Text.resumes_keyword (by decide) (by decide) body.leads_leaves
      (hrest tail more)) fun _ hshows => ?_
    exact absurd
      (Text.shows_keyword (by decide) body.leads_leaves (hrest tail more) hshows) (by decide)
  refine .of_node hl (k := .doKw) (by decide)
    (fun tail => (body.shape [] gap).withField .body :: word .whileKw (body.leaves gap) gap ::
      enclosed .condition condition ++ ending.shapes tail)
    (fun _ _ => rfl) (fun g h => by rw [wordStatement, h]; rfl) (fun tail more h => ?_)
    fun depth hdepth tail more h made => ?_
  · simp only [sourceAll_append, sourceAll, source_withField, List.append_assoc, List.cons_append]
    exact hbody.settled (hnext tail more)
  · have hclose := ending.endsContents h.closes
    simp only [sourceAll_append, sourceAll, source_withField, List.append_assoc, List.nil_append,
      List.reverse_append, List.reverse_cons, List.cons_append]
    refine (hbody.goes_in hdepth body.takes_nil (hnext tail more) .body _ _).bind ?_
    refine Goes.bind (b := ()) ((goes_eatWord hl (by decide) body.leads_leaves (hrest tail more) _
      _).bind (goes_pure _ _)) ?_
    refine (goes_enclosed hl condition (by omega) hclose.settled _ _ _).bind ?_
    exact (goes_eatEnding hl ending h.closes _ _).bind (goes_pure _ _)

/-! ### `for` -/

omit hl in
/-- Semicolons in the head of a `for` are read again. -/
theorem reads_semicolon (h : more.Settled) :
    Mode.operator.Reads ((sign .semicolon none gap).source ++ more) .semicolon
      Kind.semicolon.text gap
      more :=
  Mode.reads_closing (.inl rfl) (by decide) (.inl rfl) (.inl ⟨rfl, h⟩)

omit [Alphabet] in
omit hl in
theorem settled_sign {k : Kind} (hk : k ∈ [Kind.semicolon, .lParen, .rParen]) (more : Text) :
    Text.Settled ((sign k none gap).source ++ more) := by
  simp only [List.mem_cons, List.not_mem_nil, or_false] at hk
  rcases hk with rfl | rfl | rfl <;>
    exact settled_of_solid (solid_cons (by decide) (by decide) (by decide) _)

/-- Behind its first clause a `for` is read again. -/
theorem goes_forClauses {condition update : Option Expr} {body : Stmt}
    (hbody : body.IsLegible limits n)
    {depth : Nat} (hdepth : n + 1 ≤ depth) (hcondition : Expr.levelsOfOption condition ≤ depth)
    (hupdate : Expr.levelsOfOption update ≤ depth) (hmore : body.Followed tail more)
    (made : List Shape) :
    (atDepth limits depth).Goes
      (do
        expect .semicolon
        when (!(← sees .semicolon)) (Grammar.expression .condition)
        expect .semicolon
        when (!(← sees .rParen)) (Grammar.expression .update)
        expect .rParen
        statementIn .body
        return (Kind.forStmt, ()))
      ⟨(sign .semicolon none gap).source ++ (sourceAll (optional .condition condition) ++
        ((sign .semicolon none gap).source ++ (sourceAll (optional .update update) ++
          ((sign .rParen none gap).source ++ ((body.shape [] tail).source ++ more))))),
          .operator, made⟩
      (.forStmt, ())
      ⟨more, .operator, (body.shape [] tail).withField .body :: sign .rParen none gap ::
        ((optional .update update).reverse ++ (sign .semicolon none gap ::
          ((optional .condition condition).reverse ++ (sign .semicolon none gap :: made))))⟩ := by
  have hparen :=
    Mode.operator.reads_sign .rParen rfl (ends_gap_of_settled (hbody.settled hmore)) none
  have hlast := settled_sign (k := .rParen) (by decide) ((body.shape [] tail).source ++ more)
  have hsecond := reads_semicolon (settled_optional hl .update update hlast)
  have hmiddle := settled_sign (k := .semicolon) (by decide) (sourceAll (optional .update update) ++
    ((sign .rParen none gap).source ++ ((body.shape [] tail).source ++ more)))
  have hfirst := reads_semicolon (settled_optional hl .condition condition hmiddle)
  refine (goes_expect hl hfirst).bind ?_
  refine goes_optional hl hcondition (by decide) hmiddle hsecond.ahead ?_ _
  refine (goes_expect hl hsecond).bind ?_
  refine goes_optional hl hupdate (by decide) hlast hparen.ahead ?_ _
  refine (goes_expect hl hparen).bind ?_
  exact (hbody.goes_in hdepth body.takes_nil hmore .body _ _).bind (goes_pure _ _)

theorem legible_forLoop {first : ForFirst} {condition update : Option Expr} {body : Stmt}
    (hbody : body.IsLegible limits n) (hfirst : first.levels ≤ n + 1)
    (hcondition : Expr.levelsOfOption condition ≤ n + 1)
    (hupdate : Expr.levelsOfOption update ≤ n + 1) :
    (forLoop first condition update body).IsLegible limits (n + 1) := by
  have hnext {tail : List Trivia} {more : Text}
      (h : (forLoop first condition update body).Followed tail more) : body.Followed tail more :=
    ⟨h.closes, h.handlers, h.noElse⟩
  refine .of_keyword (k := .forKw) (by decide)
    (fun tail => sign .lParen none gap :: first.shapes ++ sign .semicolon none gap ::
      optional .condition condition ++ sign .semicolon none gap :: optional .update update ++
      [sign .rParen none gap, (body.shape [] tail).withField .body])
    (fun _ _ => rfl) (fun g h => by rw [wordStatement, h]) (fun tail more h => ?_)
    fun depth hdepth tail more h lead hlead made => ?_
  · simp only [sourceAll_append, sourceAll, List.append_assoc, List.cons_append]
    exact settled_sign (by decide) _
  · have hsemicolon := settled_sign (k := .semicolon) (by decide)
      (sourceAll (optional .condition condition) ++ ((sign .semicolon none gap).source ++
        (sourceAll (optional .update update) ++ ((sign .rParen none gap).source ++
          ((body.shape [] tail).source ++ more)))))
    have hopen := Mode.operator.reads_sign .lParen rfl
      (ends_gap_of_settled (settled_forFirst hl first hsemicolon)) none
    have hno := (reads_semicolon (settled_optional hl .condition condition (settled_sign
      (k := .semicolon) (by decide) (sourceAll (optional .update update) ++
        ((sign .rParen none gap).source ++ ((body.shape [] tail).source ++ more)))))).glimpse
    obtain ⟨headed, made', hhead, hlabel⟩ :=
      exists_goes_forHead hl first (Nat.le_trans hfirst hdepth)
      hsemicolon (congrArg Glimpse.kind hno) .operator [sign .lParen none gap, word .forKw lead gap]
    have hclauses := goes_forClauses hl hbody hdepth (Nat.le_trans hcondition hdepth)
      (Nat.le_trans hupdate hdepth) (hnext h)
      (first.shapes.reverse ++ [sign .lParen none gap, word .forKw lead gap])
    simp only [sourceAll_append, sourceAll, source_withField, List.append_assoc, List.nil_append,
      List.cons_append]
    refine goes_node hl ((goes_takeKeyword hl (by decide) hlead (settled_sign (by decide) _) rfl
      []).bind ?_)
    refine (goes_eatWord_none (by rw [hopen.ahead]; decide) _ _).bind
      ((goes_expect hl hopen).bind ?_)
    refine hhead.bind ((goes_seesWord _ _ _ _).bind (.of_neg ?_ ?_))
    · simp [hno, Glimpse.isWord]
    · refine (goes_pure () _).bind (hlabel.bind ?_)
      simpa using hclauses

omit hl in
/-- `in` is read as a word, and is no operator in the head of a `for`. -/
theorem reads_in (h : more.Settled) :
    Mode.operator.Reads ((sign .inKw none gap).source ++ more) .name Kind.inKw.text gap more :=
  Mode.operator.reads_word rfl rfl (ends_gap_of_settled h) none

/-- A name in front of `in` is the whole first clause of a `for`. -/
theorem goes_forTarget (target : Name) {depth : Nat} (hdepth : 2 ≤ depth) (h : more.Settled)
    (made : List Shape) :
    (atDepth limits depth).Goes forHead
      ⟨(ident target gap).source ++ ((sign .inKw none gap).source ++ more), .operator, made⟩ true
      ⟨(sign .inKw none gap).source ++ more, .operator, ident target gap :: made⟩ := by
  have hin := reads_in h
  have hsolid := Mode.operator.solid_operator (k := .inKw) rfl none more
  have hread := Mode.operator.reads_name rfl target (ends_gap hsolid)
  have hnext : Text.Follows ((sign .inKw none gap).source ++ more) Precedence.primary.rank ∧
      Text.Stops ((sign .inKw none gap).source ++ more) .comma { noIn := true } := by
    refine ⟨⟨by rw [hin.ahead]; decide, fun _ p _ => p.leftFloor_le_primary⟩, fun op p hop => ?_⟩
    rw [hin.glimpse] at hop
    cases hop
  have hcall := (Phrase.readable_name hl target (.inl rfl) 0 true).goes_expression hdepth .comma
    { noIn := true } (Nat.zero_le _) (fun _ => rfl) nofun (ends_gap hsolid) hnext .operator made
  refine (goes_look_reads _ _ _ _ hread).bind (.of_neg ?_ (.of_neg ?_ (hcall.bind (goes_pure _ _))))
  · simp [target.isPlainAs.isWord_eq_false]
  · exact Bool.false_ne_true

omit [Alphabet] in
omit hl in
theorem settled_each (each : Bool) (hmore : more.Settled) :
    Text.Settled (sourceAll (if each then [word .eachKw [] gap] else []) ++ more) := by
  cases each with
  | false => exact hmore
  | true => exact Text.settled_keyword (k := .eachKw) (by decide) (.inl rfl) gap _

/-- Whether there is an `each` is seen from the next token. -/
theorem goes_each (each : Bool) (hmore : more.Settled) (hahead : more.ahead ≠ .name) {depth : Nat}
    (made : List Shape) :
    (atDepth limits depth).Goes (eatWord .eachKw)
      ⟨sourceAll (if each then [word .eachKw [] gap] else []) ++ more, .operator, made⟩ each
      ⟨more, .operator, (if each then [word .eachKw [] gap] else []) ++ made⟩ := by
  cases each with
  | false => exact goes_eatWord_none hahead _ _
  | true =>
    rw [if_pos rfl, sourceAll, sourceAll, List.append_nil]
    exact goes_eatWord hl (by decide) (.inl rfl) hmore _ _

theorem legible_forIn (each : Bool) {target : Name} {collection : Expr} {body : Stmt}
    (hbody : body.IsLegible limits n) (hcollection : collection.levels ≤ n + 1) :
    (forIn each target collection body).IsLegible limits (n + 1) := by
  have hnext {tail : List Trivia} {more : Text}
      (h : (forIn each target collection body).Followed tail more) : body.Followed tail more :=
    ⟨h.closes, h.handlers, h.noElse⟩
  refine .of_keyword (k := .forKw) (by decide)
    (fun tail => (if each then [word .eachKw [] gap] else []) ++
      [sign .lParen none gap, (ident target gap).withField .left, sign .inKw none gap,
        (collection.shape gap).withField .right, sign .rParen none gap,
        (body.shape [] tail).withField .body])
    (fun _ _ => rfl) (fun g h => by rw [wordStatement, h]) (fun tail more h => ?_)
    fun depth hdepth tail more h lead hlead made => ?_
  · simp only [sourceAll_append, sourceAll, List.append_assoc]
    exact settled_each each (settled_sign (by decide) _)
  · have hlegible := Expr.legible hl collection
    have hdeep : 4 * collection.height + 2 ≤ depth := by
      rw [Expr.levels] at hcollection
      omega
    have hsettled := hbody.settled (hnext h)
    have hclose := Mode.operator.reads_sign .rParen rfl (ends_gap_of_settled hsettled) none
    have hparen := ends_gap_of_settled (settled_sign (k := .rParen) (by decide)
      ((body.shape [] tail).source ++ more))
    have hopens := settled_of_solid (hlegible.opens gap _ hparen).solid
    have hin := reads_in hopens
    have hhead := goes_forTarget hl target (Nat.le_trans (Nat.le_add_left 2 _) hdeep) hopens
    have hopen := Mode.operator.reads_sign .lParen rfl (ends_gap (Phrase.solid_ident target gap
      ((sign .inKw none gap).source ++ ((collection.shape gap).source ++
        ((sign .rParen none gap).source ++ ((body.shape [] tail).source ++ more)))))) none
    have hinside := hlegible.goes_closed hdeep hparen (by rw [hclose.ahead]; decide) .operator
    have hword := settled_each each (settled_sign (k := .lParen) (by decide)
      ((ident target gap).source ++
        ((sign .inKw none gap).source ++ ((collection.shape gap).source ++
        ((sign .rParen none gap).source ++ ((body.shape [] tail).source ++ more))))))
    simp only [sourceAll_append, sourceAll, source_withField, List.append_assoc, List.nil_append]
    refine goes_node hl ((goes_takeKeyword hl (by decide) hlead hword rfl []).bind ?_)
    refine (goes_each hl each (settled_sign (by decide) _) (by rw [hopen.ahead]; decide) _).bind ?_
    refine (goes_expect hl hopen).bind
      ((hhead _).bind ((goes_seesWord _ _ _ _).bind (.of_pos ?_ ?_)))
    · rw [hin.glimpse]
      rfl
    · refine (goes_label _ _ _ _ _).bind ((goes_takeWord hl hin _ _).bind ?_)
      refine (goes_callIn (hinside _)).bind ((goes_expect hl hclose).bind ?_)
      refine Goes.bind (b := ()) ?_ (goes_pure _ _)
      have hlast := hbody.goes_in hdepth body.takes_nil (hnext h) .body .operator
        (sign .rParen none gap :: (collection.shape gap).withField .right :: sign .inKw none gap ::
          (ident target gap).withField .left :: sign .lParen none gap ::
          ((if each then [word .eachKw [] gap] else []) ++ [word .forKw lead gap]))
      cases each <;> exact hlast

end

end Stmt

end ActionScript
