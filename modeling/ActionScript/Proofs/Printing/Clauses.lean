import ActionScript.Proofs.Printing.Rows

/-!
# Clauses of `switch` and `try`

The row in a clause of a `switch` has no braces: it goes on up to the next clause or the brace that
closes them all.  The rows in the clauses of a `try` have braces of their own.

* `Text.EndsClause`: where the row in a clause ends.
* `Setting.rounds_clauses`: **the clauses of a `switch` are read again.**
* `Setting.rounds_handlers`: **the clauses of a `try` are read again.**
-/

set_option autoImplicit false

namespace ActionScript

open ActionScript.Parser ActionScript.Grammar Trivia

variable [Alphabet]

namespace Clause

/-- The value that leads to a clause, if it is not the default. -/
def value : Clause → Option Expr
  | mk value _ => value

/-- The statements of a clause. -/
def body : Clause → List Stmt
  | mk _ body => body

/-- A clause is read again, with so many levels left for its statements. -/
structure IsLegible (limits : Limits) (n : Nat) (c : Clause) : Prop where
  value : Expr.levelsOfOption c.value ≤ n + 1
  body : Stmt.AreLegible limits n c.body

end Clause

theorem Stmt.leads_leavesOfClauses (clauses : List Clause) {lead : List Trivia}
    (hlead : Leads lead) : Leads (leavesOfClauses clauses lead) := by
  induction clauses generalizing lead with
  | nil => exact hlead
  | cons c clauses ih =>
    obtain ⟨value, body⟩ := c
    exact ih (leads_leavesAll body)

/-- The rows of statements in the clauses of a `try`. -/
def Handlers.bodies : Handlers → List (List Stmt)
  | last _ body => [body]
  | lastFinally _ body finalizer => [body, finalizer]
  | more _ body others => body :: others.bodies

namespace Text

/-- The row in a clause of a `switch` ends here. -/
structure EndsClause (lead : List Trivia) (cs : Text) : Prop extends Resumes lead cs where
  noElse : ¬cs.Shows .elseKw
  ending : cs.ahead = .rCurly ∨ cs.Shows .caseKw ∨ cs.Shows .defaultKw

variable {lead tail : List Trivia} {more : Text}

theorem shows_iff_isWord {cs : Text} {k : Kind} {word : String} (h : k.text = word.toList) :
    cs.Shows k ↔ (cs.glimpse .operator).isWord word = true := by
  simp [Shows, Glimpse.isWord, h]

theorem endsClause_rCurly (hlead : Leads lead) (h : Behind tail more) :
    EndsClause lead ((Shape.word .rCurly lead tail).source ++ more) := by
  have hcurly := (Mode.reads_closing (.inl rfl) (k := .rCurly) (by decide) hlead h).ahead
  exact ⟨resumes_rCurly hlead h, not_shows_of_ahead (by rw [hcurly]; decide) _, .inl hcurly⟩

theorem endsClause_keyword {k : Kind} (hk : k = .caseKw ∨ k = .defaultKw) (hlead : Leads lead)
    (hmore : more.Settled) : EndsClause lead ((Shape.word k lead gap).source ++ more) := by
  have hmem : k ∈ statementKeywords := by rcases hk with rfl | rfl <;> decide
  have hhandler : k ∉ [Kind.catchKw, .finallyKw] := by rcases hk with rfl | rfl <;> decide
  have hshows : Shows ((Shape.word k lead gap).source ++ more) k := by
    rw [Shows, (Mode.operator.reads_keyword rfl hmem hlead hmore).glimpse]
    exact ⟨rfl, rfl⟩
  refine ⟨resumes_keyword hmem hhandler hlead hmore, fun helse => ?_, .inr ?_⟩
  · have htext := shows_keyword hmem hlead hmore helse
    rcases hk with rfl | rfl <;> exact absurd htext (by decide)
  · rcases hk with rfl | rfl
    · exact .inl hshows
    · exact .inr hshows

omit [Alphabet] in
theorem solid_colon (rest : Text) : Solid ((Shape.sign .colon none gap).source ++ rest) :=
  solid_cons (by decide) (by decide) (by decide) _

end Text

namespace Setting

variable {limits : Limits} {n depth : Nat} {lead tail : List Trivia} {more : Text}

/-! ## Clauses of `switch` -/

/-- The row in a clause is read up to its end. -/
theorem goes_clauseStatements {ss : List Stmt} (hss : Stmt.AreLegible limits n ss)
    (hdepth : n + 1 ≤ depth) (h : Text.EndsClause (Stmt.leavesAll ss [] gap) more)
    (made : List Shape) :
    (atDepth limits depth).Goes clauseStatements
      ⟨Shape.sourceAll (Stmt.shapesAll ss [] gap) ++ more, .operator, made⟩ ()
      ⟨more, .operator,
        ((Stmt.shapesAll ss [] gap).map (Shape.withField .body)).reverse ++ made⟩ := by
  have hcase (cs : Text) : cs.Shows .caseKw ↔ (cs.glimpse .operator).isWord "case" = true :=
    Text.shows_iff_isWord rfl
  have hdefault (cs : Text) :
      cs.Shows .defaultKw ↔ (cs.glimpse .operator).isWord "default" = true :=
    Text.shows_iff_isWord rfl
  have hlast := Stmt.followed_of_resumesAll h.toResumes h.noElse
  refine goes_loop (Stmt.rounds_shapesAll (f := Shape.withField .body) hss.each hss.takes
    hlast ?_ (.last ?_))
  · intro s hs lead hlead tail more hnext made
    have hopens := hs.opens lead hlead tail more hnext
    have hne := hopens.ahead_ne
    have hnocase := mt (hcase _).2 (hopens.words .caseKw (by decide))
    have hnodefault := mt (hdefault _).2 (hopens.words .defaultKw (by decide))
    refine (goes_look _ _ _ _).bind (.of_neg ?_ ?_)
    · rw [Text.ahead] at hne
      simp [hne, hnocase, hnodefault]
    · exact (hs.goes_in hdepth hlead hnext .body .operator made).bind (goes_pure _ _)
  · refine (goes_look _ _ _ _).bind (.of_pos ?_ (goes_pure _ _))
    rcases h.ending with hcurly | hshows | hshows
    · rw [Text.ahead] at hcurly
      simp [hcurly]
    · simp [(hcase more).1 hshows]
    · simp [(hdefault more).1 hshows]

section
variable (hl : limits.Endless)
include hl

/-- A clause opens where the clauses or the row in front of it ends. -/
theorem endsClause_shapesOfClauses (clauses : List Clause) (hlead : Leads lead)
    (hmore : Text.Behind tail more) :
    Text.EndsClause lead (Shape.sourceAll (Stmt.shapesOfClauses clauses lead) ++
      ((Shape.word .rCurly (Stmt.leavesOfClauses clauses lead) tail).source ++ more)) := by
  rcases clauses with _ | ⟨⟨_ | value, body⟩, clauses⟩
  · exact Text.endsClause_rCurly hlead hmore
  · simp only [Stmt.shapesOfClauses, Shape.sourceAll, Shape.source, List.append_assoc]
    exact Text.endsClause_keyword (.inr rfl) hlead (settled_of_solid (Text.solid_colon _))
  · simp only [Stmt.shapesOfClauses, Shape.sourceAll, Shape.source, Shape.source_withField,
      List.append_assoc]
    exact Text.endsClause_keyword (.inl rfl) hlead <| settled_of_solid <|
      ((Expr.legible hl value).opens gap _ (ends_gap (Text.solid_colon _))).solid

/-- What follows a clause's keyword and value is read again: a colon and the row. -/
theorem goes_clauseBody {ss : List Stmt} (hss : Stmt.AreLegible limits n ss)
    (hdepth : n + 1 ≤ depth) (h : Text.EndsClause (Stmt.leavesAll ss [] gap) more)
    (made : List Shape) :
    (atDepth limits depth).Goes
      (do
        expect .colon
        clauseStatements)
      ⟨(Shape.sign .colon none gap).source ++ (Shape.sourceAll (Stmt.shapesAll ss [] gap) ++ more),
        .operator, made⟩ ()
      ⟨more, .operator, ((Stmt.shapesAll ss [] gap).map (Shape.withField .body)).reverse ++
        (Shape.sign .colon none gap :: made)⟩ := by
  have hrow := Stmt.settled_shapesAll hss h.toResumes h.noElse
  have hcolon := Mode.operator.reads_sign .colon rfl (ends_gap_of_settled hrow) none
  exact (goes_expect hl hcolon).bind (goes_clauseStatements hss hdepth h _)

/-- A clause is read again in a round. -/
theorem goes_switchClause {c : Clause} (hc : c.IsLegible limits n) (hdepth : n + 1 ≤ depth)
    (hlead : Leads lead) (h : Text.EndsClause (Stmt.leavesAll c.body [] gap) more)
    (made : List Shape) :
    (atDepth limits depth).Goes
      (do
        let g ← look .operator
        if g.kind == .rCurly || g.kind == .eof then return false
        else
          switchClause g
          return true)
      ⟨Shape.sourceAll (Stmt.shapesOfClauses [c] lead) ++ more, .operator, made⟩ true
      ⟨more, .operator, Stmt.shapesOfClauses [c] lead ++ made⟩ := by
  obtain ⟨value, body⟩ := c
  have hbody : Stmt.AreLegible limits n body := hc.body
  have hends : Text.EndsClause (Stmt.leavesAll body [] gap) more := h
  have hrow (made : List Shape) := goes_clauseBody hl hbody hdepth hends made
  have hsolid := Text.solid_colon (Shape.sourceAll (Stmt.shapesAll body [] gap) ++ more)
  have hcolon := Mode.operator.reads_sign .colon rfl (ends_gap_of_settled
    (Stmt.settled_shapesAll hbody hends.toResumes hends.noElse)) none
  cases value with
  | some value =>
    have hvalue := Expr.legible hl value
    have hlevels : value.levels ≤ n + 1 := hc.value
    have hdeep : 4 * value.height + 2 ≤ depth := by
      rw [Expr.levels] at hlevels
      omega
    have hopens := hvalue.opens gap _ (ends_gap hsolid)
    have hread := Mode.operator.reads_keyword (k := .caseKw) rfl (by decide) hlead
      (settled_of_solid hopens.solid)
    have hinside := hvalue.goes_closed hdeep (ends_gap hsolid)
      (by rw [hcolon.ahead]; decide) .operator [Shape.word .caseKw lead gap]
    simp only [Stmt.shapesOfClauses, Shape.sourceAll, Shape.source, Shape.source_withField,
      Shape.sourceAll_map_withField, List.append_assoc, List.nil_append]
    refine (goes_look_behind _ _ _ _ hread).bind (.of_neg (by simp)
      (Goes.bind (b := ()) (.of_pos rfl ?_) (goes_pure _ _)))
    refine goes_nodeOf hl ((goes_takeWord hl hread _ _).bind ((goes_callIn hinside).bind ?_))
    simpa using hrow [(value.shape gap).withField .value, Shape.word .caseKw lead gap]
  | none =>
    have hread := Mode.operator.reads_keyword (k := .defaultKw) rfl (by decide) hlead
      (settled_of_solid hsolid)
    simp only [Stmt.shapesOfClauses, Shape.sourceAll, Shape.source, Shape.sourceAll_map_withField,
      List.append_assoc, List.nil_append]
    refine (goes_look_behind _ _ _ _ hread).bind (.of_neg (by simp)
      (Goes.bind (b := ()) (.of_neg Bool.false_ne_true (.of_pos rfl ?_)) (goes_pure _ _)))
    refine goes_nodeOf hl
      ((goes_takeKeyword hl (by decide) hlead (settled_of_solid hsolid) rfl []).bind ?_)
    simpa using hrow [Shape.word .defaultKw lead gap]

/-- **The clauses of a `switch` are read again**, one round each. -/
theorem rounds_clauses {clauses : List Clause} (hclauses : ∀ c ∈ clauses, c.IsLegible limits n)
    (hdepth : n + 1 ≤ depth) (hlead : Leads lead) (hmore : Text.Behind tail more)
    (made : List Shape) :
    (atDepth limits depth).Rounds
      (do
        let g ← look .operator
        if g.kind == .rCurly || g.kind == .eof then return false
        else
          switchClause g
          return true)
      ⟨Shape.sourceAll (Stmt.shapesOfClauses clauses lead) ++
        ((Shape.word .rCurly (Stmt.leavesOfClauses clauses lead) tail).source ++ more),
        .operator, made⟩
      ⟨(Shape.word .rCurly (Stmt.leavesOfClauses clauses lead) tail).source ++ more, .operator,
        (Stmt.shapesOfClauses clauses lead).reverse ++ made⟩ := by
  induction clauses generalizing lead made with
  | nil =>
    have hcurly := Mode.reads_closing (.inl rfl) (k := .rCurly) (by decide) hlead hmore
    exact .last ((goes_look_behind _ _ _ _ hcurly).bind (.of_pos rfl (goes_pure _ _)))
  | cons c clauses ih =>
    obtain ⟨hc, hothers⟩ := List.forall_mem_cons.1 hclauses
    have hleaves := Stmt.leads_leavesAll c.body
    have hclause := goes_switchClause hl hc hdepth hlead
      (endsClause_shapesOfClauses hl clauses hleaves hmore) made
    have hrest := ih hothers hleaves (Stmt.shapesOfClauses [c] lead ++ made)
    have hshapes : Stmt.shapesOfClauses (c :: clauses) lead =
        Stmt.shapesOfClauses [c] lead ++ Stmt.shapesOfClauses clauses
          (Stmt.leavesAll c.body [] gap) := by
      obtain ⟨value, body⟩ := c
      cases value <;> rfl
    have hmade : (Stmt.shapesOfClauses (c :: clauses) lead).reverse =
        (Stmt.shapesOfClauses clauses (Stmt.leavesAll c.body [] gap)).reverse ++
          Stmt.shapesOfClauses [c] lead := by
      obtain ⟨value, body⟩ := c
      cases value <;> exact List.reverse_cons
    have hend : Stmt.leavesOfClauses (c :: clauses) lead =
        Stmt.leavesOfClauses clauses (Stmt.leavesAll c.body [] gap) := by
      obtain ⟨value, body⟩ := c
      rfl
    rw [hmade, hend, hshapes, Shape.sourceAll_append, List.append_assoc, List.append_assoc]
    exact .more hclause hrest

/-- The body of a `switch` is read again, with its braces. -/
theorem goes_switchBody {clauses : List Clause} (hclauses : ∀ c ∈ clauses, c.IsLegible limits n)
    (hdepth : n + 1 ≤ depth) (hmore : Text.Behind tail more) (made : List Shape) :
    (atDepth limits depth).Goes
      (nodeOf .switchBody do
        take none
        loop do
          let g ← look .operator
          if g.kind == .rCurly || g.kind == .eof then return false
          else
            switchClause g
            return true
        expect .rCurly)
      ⟨(Shape.braces .switchBody (Stmt.shapesOfClauses clauses []) []
        (Stmt.leavesOfClauses clauses []) tail).source ++ more, .operator, made⟩ ()
      ⟨more, .operator, Shape.braces .switchBody (Stmt.shapesOfClauses clauses []) []
        (Stmt.leavesOfClauses clauses []) tail :: made⟩ := by
  have hleads := Stmt.leads_leavesOfClauses clauses (.inl rfl)
  have hends := endsClause_shapesOfClauses hl clauses (.inl rfl) hmore
  exact goes_braces hl (.inl rfl) hleads hmore hends.settled
    (fun made => goes_loop (rounds_clauses hl hclauses hdepth (.inl rfl) hmore made))
      .switchBody made

end

/-! ## Clauses of `try` -/

/-- What opens a clause of a `try` is no trivia. -/
theorem settled_handlers (handlers : Handlers) (tail : List Trivia) (more : Text) :
    Text.Settled (Shape.sourceAll (Stmt.shapesOfHandlers handlers tail) ++ more) := by
  cases handlers with
  | last _ _ | lastFinally _ _ _ | more _ _ _ =>
    exact settled_of_solid (solid_cons (by decide) (by decide) (by decide) _)

/-- A `catch` comes first. -/
theorem isWord_catch (handlers : Handlers) (tail : List Trivia) (more : Text) :
    (Text.glimpse .operator
      (Shape.sourceAll (Stmt.shapesOfHandlers handlers tail) ++ more)).isWord "catch" = true := by
  have hparen (rest : Text) : Text.Settled ((Shape.sign .lParen none gap).source ++ rest) :=
    settled_of_solid (solid_cons (by decide) (by decide) (by decide) _)
  have hfirst (parameter : Name) (block : Shape) (rest : Text) :
      (Text.glimpse .operator ((Shape.caught parameter block).source ++ rest)).isWord
        "catch" = true := by
    simp only [Shape.caught, Shape.source, Shape.sourceAll, List.append_assoc]
    rw [(Mode.operator.reads_keyword (k := .catchKw) rfl (by decide) (.inl rfl) (hparen _)).glimpse]
    rfl
  cases handlers <;>
    rw [Stmt.shapesOfHandlers, Shape.sourceAll, List.append_assoc] <;> exact hfirst _ _ _

/-- The `catch` clauses end where none comes next. -/
theorem rounds_handlers_stop (h : ¬more.Shows .catchKw) (made : List Shape) :
    (atDepth limits depth).Rounds
      (do
        if ← seesWord "catch" then
          catchClause
          return true
        else
          return false)
      ⟨more, .operator, made⟩ ⟨more, .operator, made⟩ := by
  refine .last ((goes_seesWord _ _ _ _).bind (.of_neg ?_ (goes_pure _ _)))
  have hcatch : more.Shows .catchKw ↔ (more.glimpse .operator).isWord "catch" = true :=
    Text.shows_iff_isWord rfl
  exact mt hcatch.2 h

section
variable (hl : limits.Endless)
include hl

theorem goes_bodyBlock {ss : List Stmt} (hss : Stmt.AreLegible limits n ss) (hdepth : n + 1 ≤ depth)
    (hmore : Text.Behind tail more) (mode : Mode) (made : List Shape) :
    (atDepth limits depth).Goes bodyBlock
      ⟨(Shape.braces .block (Stmt.shapesAll ss [] gap) [] (Stmt.leavesAll ss [] gap)
        tail).source ++ more, mode, made⟩ ()
      ⟨more, .operator, (Shape.braces .block (Stmt.shapesAll ss [] gap) []
        (Stmt.leavesAll ss [] gap) tail).withField .body :: made⟩ :=
  (goes_braced hl hss hdepth (.inl rfl) hmore .block mode made).bind (goes_label _ _ _ _ _)

/-- A `catch` is read again in a round, if its block is read again. -/
theorem goes_caught {block : Shape} (hsolid : Text.Solid (block.source ++ more))
    (hblock : ∀ mode made, (atDepth limits depth).Goes bodyBlock
      ⟨block.source ++ more, mode, made⟩ ()
      ⟨more, .operator, block.withField .body :: made⟩) (parameter : Name) (made : List Shape) :
    (atDepth limits depth).Goes
      (do
        if ← seesWord "catch" then
          catchClause
          return true
        else
          return false)
      ⟨(Shape.caught parameter block).source ++ more, .operator, made⟩ true
      ⟨more, .operator, Shape.caught parameter block :: made⟩ := by
  have hclose := Mode.operator.reads_sign .rParen rfl (ends_gap hsolid) none
  have hbehind := settled_of_solid (Mode.operator.solid_sign .rParen rfl none gap
    (block.source ++ more))
  have hname := ends_gap (Phrase.solid_ident parameter gap
    ((Shape.sign .rParen none gap).source ++ (block.source ++ more)))
  have hopen := Mode.operator.reads_sign .lParen rfl hname none
  have hparen := settled_of_solid (Mode.operator.solid_sign .lParen rfl none gap
    ((Shape.ident parameter gap).source ++ ((Shape.sign .rParen none gap).source ++
      (block.source ++ more))))
  have hword := Mode.operator.reads_keyword (k := .catchKw) rfl (by decide) (.inl rfl) hparen
  have hsource : (Shape.caught parameter block).source ++ more =
      (Shape.word .catchKw [] gap).source ++ ((Shape.sign .lParen none gap).source ++
        ((Shape.ident parameter gap).source ++ ((Shape.sign .rParen none gap).source ++
          (block.source ++ more)))) := by
    simp [Shape.caught, Shape.source, Shape.sourceAll]
  rw [hsource]
  refine (goes_seesWord _ _ _ _).bind (.of_pos ?_ (Goes.bind (b := ()) ?_ (goes_pure _ _)))
  · rw [hword.glimpse]
    rfl
  · refine (goes_nodeOf hl ?_).bind (goes_label _ _ _ _ _)
    refine (goes_takeWord hl hword _ _).bind ((goes_expect hl hopen).bind ?_)
    refine (goes_name hl parameter (.inl rfl) hbehind _ _ _ _).bind ?_
    refine (goes_typeAscription?_none (by rw [hclose.ahead]; decide) _ _ _).bind ?_
    exact (goes_expect hl hclose).bind (hblock _ _)

/-- **The clauses of a `try` are read again**: the `catch` clauses in one round each, and the
`finally` behind them. -/
theorem rounds_handlers (handlers : Handlers)
    (h : ∀ ss ∈ handlers.bodies, Stmt.AreLegible limits n ss)
    (hdepth : n + 1 ≤ depth) (hmore : Text.Behind tail more)
    (hends : ∀ k ∈ [Kind.catchKw, .finallyKw], ¬more.Shows k) (made : List Shape) :
    ∃ rest made', (atDepth limits depth).Rounds
      (do
        if ← seesWord "catch" then
          catchClause
          return true
        else
          return false)
      ⟨Shape.sourceAll (Stmt.shapesOfHandlers handlers tail) ++ more, .operator, made⟩
      ⟨rest, .operator, made'⟩ ∧
    (atDepth limits depth).Goes (clause? .finallyKw .finallyClause .finalizer bodyBlock)
      ⟨rest, .operator, made'⟩ ()
      ⟨more, .operator, (Stmt.shapesOfHandlers handlers tail).reverse ++ made⟩ := by
  have hsolid := Shape.solid_braces .block
  cases handlers with
  | last parameter body =>
    obtain ⟨hbody, -⟩ := List.forall_mem_cons.1 h
    have hblock := goes_bodyBlock hl hbody hdepth hmore
    refine ⟨more, _, ?_, goes_clause?_none (by decide) (hends _ (by decide)) _ _ _ _ _⟩
    rw [Stmt.shapesOfHandlers, Shape.sourceAll, Shape.sourceAll, List.append_nil]
    exact .more (goes_caught hl (hsolid _ _ _ _) hblock parameter made)
      (rounds_handlers_stop (hends _ (by decide)) _)
  | lastFinally parameter body finalizer =>
    obtain ⟨hbody, hothers⟩ := List.forall_mem_cons.1 h
    obtain ⟨hfinalizer, -⟩ := List.forall_mem_cons.1 hothers
    have hlast := settled_of_solid (hsolid (Stmt.shapesAll finalizer [] gap)
      (Stmt.leavesAll finalizer [] gap) tail more)
    have hfinally := Text.settled_keyword (k := .finallyKw) (by decide) (.inl rfl) gap
      ((Shape.braces .block (Stmt.shapesAll finalizer [] gap) [] (Stmt.leavesAll finalizer [] gap)
        tail).source ++ more)
    have hblock := goes_bodyBlock hl hbody hdepth (.inl ⟨rfl, hfinally⟩)
    simp only [Stmt.shapesOfHandlers, Shape.sourceAll, Shape.source, Shape.source_withField,
      List.append_assoc, List.nil_append]
    refine ⟨_, _, .more (goes_caught hl (hsolid _ _ _ _) hblock parameter made)
      (rounds_handlers_stop ?_ _), ?_⟩
    · refine fun hshows => absurd (Text.shows_keyword (by decide) (.inl rfl) hlast hshows) ?_
      decide
    · exact goes_clause? hl (by decide) (.inl rfl) hlast
        (goes_bodyBlock hl hfinalizer hdepth hmore _ _) _ _
  | more parameter body others =>
    obtain ⟨hbody, hothers⟩ := List.forall_mem_cons.1 h
    have hblock := goes_bodyBlock hl hbody hdepth (.inl ⟨rfl, settled_handlers others tail more⟩)
    obtain ⟨rest, made', hrounds, hclause⟩ := rounds_handlers others hothers hdepth hmore hends
      (Shape.caught parameter (Shape.braces .block (Stmt.shapesAll body [] gap) []
        (Stmt.leavesAll body [] gap) gap) :: made)
    refine ⟨rest, made', ?_, ?_⟩
    · rw [Stmt.shapesOfHandlers, Shape.sourceAll, List.append_assoc]
      exact .more (goes_caught hl (hsolid _ _ _ _) hblock parameter made) hrounds
    · simpa [Stmt.shapesOfHandlers] using hclause

end

end Setting

end ActionScript
