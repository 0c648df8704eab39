import ActionScript.Proofs.Printing.Lines

/-!
# What opens and what follows a statement

Every statement but a few opens with a keyword, which decides how it is read.  What comes behind it
may be another statement, or a word or a brace that goes on with the statement around it.

* `Mode.reads_keyword`: **keywords are read again as words**, on a new line too.
* `Text.Resumes`, `Text.OpensStatement`: what may come behind a statement, and what opens one.
* `Stmt.Followed`: **what has to be known of what follows a statement**.
* `Setting.goes_enclosed`: an expression in parentheses that belong to a statement.
-/

set_option autoImplicit false

namespace ActionScript

open ActionScript.Parser ActionScript.Grammar Trivia

/-! ## Keywords -/

/-- The keywords of statements. -/
def statementKeywords : List Kind :=
  [.ifKw, .elseKw, .whileKw, .doKw, .forKw, .eachKw, .withKw, .switchKw, .caseKw,
    .defaultKw, .tryKw, .catchKw, .finallyKw, .returnKw, .throwKw, .breakKw, .continueKw, .varKw]

/-- The keywords that open a statement. -/
def openingKeywords : List Kind :=
  [.ifKw, .whileKw, .doKw, .forKw, .withKw, .switchKw, .tryKw, .returnKw, .throwKw, .breakKw,
    .continueKw, .varKw]

theorem mem_statementKeywords {k : Kind} (hk : k ∈ openingKeywords) : k ∈ statementKeywords := by
  revert k
  decide

namespace Kind

theorem isWord_of_mem [Alphabet] {k : Kind} (hk : k ∈ statementKeywords) : k.text.IsWord := by
  have hkeyword : ∀ k ∈ statementKeywords, k.isKeyword = true := by decide
  exact isWord_text (hkeyword k hk)

theorem ofWord?_text {k : Kind} (hk : k ∈ statementKeywords) : Kind.ofWord? k.text = some k := by
  have hwords : ∀ k ∈ statementKeywords, Kind.ofWord? k.text = some k := by decide +kernel
  exact hwords k hk

/-- A keyword spells its text and nothing else. -/
theorem spells_iff {k : Kind} (hk : k ∈ statementKeywords) (t : Text) :
    k.spells t = true ↔ t = k.text := by
  have hspelled : ∀ k ∈ statementKeywords, k.spelling.isSome = true := by decide
  obtain ⟨s, hs⟩ := Option.isSome_iff_exists.1 (hspelled k hk)
  rw [spells, text, hs, Option.any_some, Option.getD_some, beq_iff_eq]
  exact eq_comm

end Kind

/-- In front of something settled, or behind a line break, something is settled. -/
theorem Trivia.settled_of_leads {lead : List Trivia} (hlead : Leads lead) {cs : Text}
    (h : cs.Solid) : Text.Settled (flatten lead ++ cs) := by
  rcases hlead with rfl | rfl
  · exact settled_of_solid h
  · have hblank : isBlank '\n' = false := by decide
    refine ⟨rfl, ?_⟩
    simp [newLine, flatten, blanks?, hblank]

section
variable {mode : Mode} {k : Kind} {lead tail : List Trivia} {rest : Text}

variable [Alphabet]

/-- **Keywords are read again**, as words. -/
theorem Mode.reads_keyword (hcode : mode.isCode = true) (hk : k ∈ statementKeywords)
    (hlead : Leads lead) (hrest : rest.Settled) :
    mode.ReadsBehind lead ((Shape.word k lead gap).source ++ rest) .name k.text gap rest := by
  rw [Shape.source_word, List.append_assoc, List.append_assoc]
  exact Mode.ReadsBehind.of_leads hlead
    (reads_of_isWord hcode (Kind.isWord_of_mem hk) (ends_gap_of_settled hrest)) hcode
    ((Kind.isWord_of_mem hk).solid _)

theorem Mode.reads_led_name (hcode : mode.isCode = true) (n : Name) (hlead : Leads lead)
    (hrest : rest.Settled) :
    mode.ReadsBehind lead (((Shape.ident n gap).led lead).source ++ rest) .name n.text gap
      rest := by
  rw [Shape.source_led lead rfl, Shape.source_ident, List.append_assoc, List.append_assoc]
  exact Mode.ReadsBehind.of_leads hlead
    (reads_of_isWord hcode n.isWord_text (ends_gap_of_settled hrest)) hcode (n.isWord_text.solid _)

/-- Opening braces are read again, on a new line too. -/
theorem Mode.reads_lCurly (hmode : mode = .operator ∨ mode = .exprStart) (hlead : Leads lead)
    (hrest : rest.Settled) :
    mode.ReadsBehind lead ((Shape.word .lCurly lead gap).source ++ rest) .lCurly
      Kind.lCurly.text gap
      rest := by
  have hcode : mode.isCode = true := by rcases hmode with rfl | rfl <;> rfl
  have hsign : mode.hasSign .lCurly = true := by rcases hmode with rfl | rfl <;> rfl
  have hread := mode.reads_sign .lCurly hsign (ends_gap_of_settled hrest) none
  have hsolid := mode.solid_sign .lCurly hsign none gap rest
  rw [Shape.source_sign_append] at hread hsolid
  rw [Shape.source_word, List.append_assoc, List.append_assoc]
  exact Mode.ReadsBehind.of_leads hlead hread hcode hsolid

end

/-! ## What comes behind a statement -/

namespace Text

/-- A word comes next. -/
def Shows [Alphabet] (cs : Text) (k : Kind) : Prop :=
  (cs.glimpse .operator).kind = .name ∧ (cs.glimpse .operator).text = k.text

/-- What may come behind a statement, behind a line break if there is a lead. -/
structure Resumes [Alphabet] (lead : List Trivia) (cs : Text) : Prop where
  settled : cs.Settled
  handlers : ∀ k ∈ [Kind.catchKw, .finallyKw], ¬cs.Shows k
  line : lead ≠ [] → cs.OnNewLine

/-- A statement opens here. -/
structure OpensStatement [Alphabet] (lead : List Trivia) (cs : Text) :
    Prop extends Resumes lead cs where
  first : statementFirst.contains cs.ahead = true
  words : ∀ k ∈ [Kind.elseKw, .caseKw, .defaultKw], ¬cs.Shows k

variable {lead : List Trivia} {cs text more : Text} {kind : Kind} {tail : List Trivia}

/-- The kinds that come behind a line break. -/
theorem resumes_of_reads [Alphabet] (hlead : Leads lead) (hsettled : cs.Settled)
    (h : Mode.operator.ReadsBehind lead cs kind text tail more)
    (hkind : lead ≠ [] → kind ∈ [Kind.name, .lCurly, .rCurly, .eof])
    (hhandlers : kind = .name → text ∉ [Kind.catchKw.text, Kind.finallyKw.text])
    (hword : kind = .name → ∀ r b, infixOperator? r ⟨.name, text, b⟩ = none) : Resumes lead cs := by
  refine ⟨hsettled, ?_, fun hne => ⟨hsettled, ?_, ?_, ?_⟩⟩
  · rintro k hk ⟨hname, htext⟩
    rw [h.glimpse] at hname htext
    refine hhandlers hname ?_
    rw [show text = k.text from htext]
    simp only [List.mem_cons, List.not_mem_nil, or_false] at hk ⊢
    rcases hk with rfl | rfl
    · exact .inl rfl
    · exact .inr rfl
  · rw [h.glimpse]
    rcases hlead with rfl | rfl
    · exact absurd rfl hne
    · rfl
  · rw [h.ahead]
    exact hkind hne
  · intro r
    rw [h.glimpse]
    have hmem := hkind hne
    simp only [List.mem_cons, List.not_mem_nil, or_false] at hmem
    rcases hmem with rfl | rfl | rfl | rfl
    · exact hword rfl r _
    · rfl
    · rfl
    · rfl

/-- A closing brace comes behind a statement. -/
theorem resumes_rCurly [Alphabet] (hlead : Leads lead) (h : Behind tail more) :
    Resumes lead ((Shape.word .rCurly lead tail).source ++ more) := by
  have hread := Mode.reads_closing (.inl rfl) (k := .rCurly) (by decide) hlead h
  refine resumes_of_reads hlead ?_ hread (fun _ => by decide) nofun nofun
  rw [Shape.source_word, List.append_assoc]
  exact settled_of_leads hlead (solid_cons (by decide) (by decide) (by decide) _)

/-- No keyword of a statement is an operator. -/
theorem infixOperator?_keyword {k : Kind} (hk : k ∈ statementKeywords) (r : Restrictions)
    (b : Bool) : infixOperator? r ⟨.name, k.text, b⟩ = none := by
  have hnone : ∀ k ∈ statementKeywords, k ∉ [Kind.inKw, .instanceofKw, .isKw, .asKw] := by decide
  have hk' := hnone k hk
  rw [infixOperator?, Kind.ofWord?_text hk]
  simp only [List.mem_cons, List.not_mem_nil, or_false, not_or] at hk'
  obtain ⟨hin, hinstance, his, has⟩ := hk'
  simp [hin, hinstance, his, has]

theorem settled_keyword {k : Kind} (hk : k ∈ statementKeywords) (hlead : Leads lead)
    (tail : List Trivia) (more : Text) :
    Settled ((Shape.word k lead tail).source ++ more) := by
  rw [Shape.source_word, List.append_assoc, List.append_assoc]
  exact settled_of_leads hlead ((Kind.isWord_of_mem hk).solid _)

variable [Alphabet]

/-- A keyword comes behind a statement, unless it belongs to a `try`. -/
theorem resumes_keyword {k : Kind} (hk : k ∈ statementKeywords)
    (hhandler : k ∉ [Kind.catchKw, .finallyKw]) (hlead : Leads lead) (hmore : more.Settled) :
    Resumes lead ((Shape.word k lead gap).source ++ more) := by
  have hread := Mode.operator.reads_keyword rfl hk hlead hmore
  refine resumes_of_reads hlead (settled_keyword hk hlead gap more) hread (fun _ => by decide) ?_
    fun _ => infixOperator?_keyword hk
  have hnot : ∀ k ∈ statementKeywords, k ∉ [Kind.catchKw, .finallyKw] →
      k.text ∉ [Kind.catchKw.text, Kind.finallyKw.text] := by
    decide +kernel
  exact fun _ => hnot k hk hhandler

theorem shows_keyword {k k' : Kind} (hk : k ∈ statementKeywords) (hlead : Leads lead)
    (hmore : more.Settled) (h : Shows ((Shape.word k lead gap).source ++ more) k') :
    k.text = k'.text := by
  obtain ⟨-, htext⟩ := h
  rwa [(Mode.operator.reads_keyword rfl hk hlead hmore).glimpse] at htext

theorem opensStatement_keyword {k : Kind} (hk : k ∈ openingKeywords) (hlead : Leads lead)
    (hmore : more.Settled) : OpensStatement lead ((Shape.word k lead gap).source ++ more) := by
  have hmem := mem_statementKeywords hk
  have hfacts : ∀ k ∈ openingKeywords, k ∉ [Kind.catchKw, .finallyKw] ∧
      ∀ k' ∈ [Kind.elseKw, .caseKw, .defaultKw], k.text ≠ k'.text := by
    decide +kernel
  obtain ⟨hhandler, hwords⟩ := hfacts k hk
  refine ⟨resumes_keyword hmem hhandler hlead hmore, ?_, fun k' hk' hshows => ?_⟩
  · rw [(Mode.operator.reads_keyword rfl hmem hlead hmore).ahead]
    decide
  · exact hwords k' hk' (shows_keyword hmem hlead hmore hshows)

theorem opensStatement_lCurly (hlead : Leads lead) (hmore : more.Settled) :
    OpensStatement lead ((Shape.word .lCurly lead gap).source ++ more) := by
  have hread := Mode.reads_lCurly (.inl rfl) hlead hmore
  refine ⟨resumes_of_reads hlead ?_ hread (fun _ => by decide) nofun nofun, ?_, ?_⟩
  · rw [Shape.source_word, List.append_assoc]
    exact settled_of_leads hlead (solid_cons (by decide) (by decide) (by decide) _)
  · rw [hread.ahead]
    decide
  · rintro k - ⟨hname, -⟩
    rw [hread.glimpse] at hname
    cases hname

/-- A name opens a statement, behind a line break too. -/
theorem opensStatement_name {n : Name} (hlead : Leads lead) (hsettled : cs.Settled)
    (hread : Mode.operator.ReadsBehind lead cs .name n.text tail more) :
    OpensStatement lead cs := by
  have hnone : ∀ k ∈ statementKeywords, n.text ≠ k.text := by
    intro k hk heq
    have hword := Kind.ofWord?_text hk
    rw [← heq, n.isFree.1] at hword
    cases hword
  refine ⟨resumes_of_reads hlead hsettled hread (fun _ => by decide) (fun _ => ?_) fun _ r b => ?_,
    ?_, ?_⟩
  · simp only [List.mem_cons, List.not_mem_nil, or_false, not_or]
    exact ⟨hnone _ (by decide), hnone _ (by decide)⟩
  · rw [infixOperator?, n.isFree.1]
    rfl
  · rw [hread.ahead]
    decide
  · rintro k hk ⟨-, htext⟩
    rw [hread.glimpse] at htext
    have hmem : ∀ k ∈ [Kind.elseKw, .caseKw, .defaultKw], k ∈ statementKeywords := by decide
    exact hnone k (hmem k hk) htext

/-- A parenthesis or a semicolon opens a statement. -/
theorem opensStatement_sign {k : Kind} (hk : k ∈ [Kind.lParen, .semicolon]) (hsettled : cs.Settled)
    (hread : Mode.operator.Reads cs k text tail more) : OpensStatement [] cs := by
  have hfacts : ∀ k ∈ [Kind.lParen, .semicolon], k ≠ .name ∧ statementFirst.contains k = true := by
    decide
  obtain ⟨hname, hfirst⟩ := hfacts k hk
  refine ⟨resumes_of_reads (.inl rfl) hsettled hread (fun h => absurd rfl h)
    (fun h => absurd h hname) (fun h => absurd h hname), ?_, ?_⟩
  · rwa [hread.ahead]
  · rintro k' - ⟨hname', -⟩
    rw [hread.glimpse] at hname'
    exact hname hname'

end Text

/-! ## What is known of what follows -/

variable [Alphabet]

namespace Stmt

/-- What follows a statement: its end, no clause of a `try` and no `else` that would be its own. -/
structure Followed (s : Stmt) (tail : List Trivia) (more : Text) : Prop where
  closes : Text.Closes s.endsLine tail more
  handlers : ∀ k ∈ [Kind.catchKw, .finallyKw], ¬more.Shows k
  noElse : s.endsInIf = true → ¬more.Shows .elseKw

/-- What may stand in front of a statement: a line break only if neither a parenthesis nor a
semicolon comes first. -/
structure Takes (s : Stmt) (lead : List Trivia) : Prop where
  leads : Leads lead
  first : lead ≠ [] → ∀ t ∈ s.tokens.head?, t ≠ Kind.lParen.text ∧ t ≠ Kind.semicolon.text

theorem takes_nil (s : Stmt) : s.Takes [] := ⟨.inl rfl, fun h => absurd rfl h⟩

theorem leaves_gap (s : Stmt) : s.leaves gap = if s.endsLine then newLine else [] := rfl

theorem leads_leaves (s : Stmt) : Leads (s.leaves gap) := by
  rw [leaves_gap]
  split
  · exact .inr rfl
  · exact .inl rfl

theorem followed_of_resumes {s : Stmt} {more : Text} (h : Text.Resumes (s.leaves gap) more)
    (helse : s.endsInIf = true → ¬more.Shows .elseKw) : s.Followed gap more := by
  refine ⟨?_, h.handlers, helse⟩
  unfold Text.Closes
  split
  · rename_i hline
    refine h.line ?_
    rw [leaves_gap, if_pos hline]
    exact List.cons_ne_nil _ _
  · exact .inl ⟨rfl, h.settled⟩

/-- A statement is read again, with so many levels left. -/
structure IsLegible (limits : Limits) (n : Nat) (s : Stmt) : Prop where
  opens : ∀ lead, s.Takes lead → ∀ tail more, s.Followed tail more →
    Text.OpensStatement lead ((s.shape lead tail).source ++ more)
  goes : ∀ depth ≥ n, ∀ lead, s.Takes lead → ∀ tail more, s.Followed tail more → ∀ mode made,
    (Setting.atDepth limits depth).Goes statementRule
      ⟨(s.shape lead tail).source ++ more, mode, made⟩
      () ⟨more, .operator, s.shape lead tail :: made⟩

variable {limits : Limits} {m n : Nat} {s : Stmt}

theorem IsLegible.mono (h : s.IsLegible limits m) (hle : m ≤ n) : s.IsLegible limits n :=
  ⟨h.opens, fun depth hdepth => h.goes depth (Nat.le_trans hle hdepth)⟩

theorem IsLegible.settled (h : s.IsLegible limits n) {tail : List Trivia} {more : Text}
    (hmore : s.Followed tail more) : Text.Settled ((s.shape [] tail).source ++ more) :=
  (h.opens [] s.takes_nil tail more hmore).settled

/-- A statement in a slot is read one level deeper. -/
theorem IsLegible.goes_in (h : s.IsLegible limits n) {depth : Nat} (hdepth : n + 1 ≤ depth)
    {lead tail : List Trivia} (hlead : s.Takes lead) {more : Text} (hmore : s.Followed tail more)
    (field : Field) (mode : Mode) (made : List Shape) :
    (Setting.atDepth limits depth).Goes (statementIn field)
      ⟨(s.shape lead tail).source ++ more, mode, made⟩ ()
      ⟨more, .operator, (s.shape lead tail).withField field :: made⟩ := by
  obtain ⟨below, rfl⟩ : ∃ below, depth = below + 1 := ⟨depth - 1, by omega⟩
  exact Setting.goes_callIn <| Setting.goes_call .statement <|
    h.goes below (by omega) lead hlead tail more hmore mode made

end Stmt

namespace Setting

variable {E : Setting} {limits : Limits} {lead : List Trivia} {rest : Text}

/-! ## Words ahead -/

theorem goes_seesWord (word : String) (rest : Text) (mode : Mode) (made : List Shape) :
    E.Goes (seesWord word) ⟨rest, mode, made⟩ ((rest.glimpse .operator).isWord word)
      ⟨rest, .operator, made⟩ :=
  (goes_look _ _ _ _).bind (goes_pure _ _)

/-- A clause is left out where its keyword does not come next. -/
theorem goes_clause?_none {k : Kind} (hk : k ∈ statementKeywords) (h : ¬rest.Shows k) (kind : Kind)
    (field : Field) (body : Parser Unit) (mode : Mode) (made : List Shape) :
    E.Goes (clause? k kind field body) ⟨rest, mode, made⟩ () ⟨rest, .operator, made⟩ := by
  refine (goes_look _ _ _ _).bind (.of_neg ?_ (goes_pure _ _))
  rw [Bool.and_eq_true, beq_iff_eq, Kind.spells_iff hk]
  exact h

/-- **A keyword decides** how a statement is read. -/
theorem goes_keyword {k : Kind} (hk : k ∈ statementKeywords) (hlead : Leads lead)
    (hrest : rest.Settled) {made : List Shape} {d : Spot}
    (h : E.Goes (wordStatement ⟨.name, k.text, lead.any breaksLine⟩)
      ⟨(Shape.word k lead gap).source ++ rest, .exprStart, made⟩ () d) (mode : Mode) :
    E.Goes statementRule ⟨(Shape.word k lead gap).source ++ rest, mode, made⟩ () d :=
  (goes_look_behind _ _ _ _ (Mode.exprStart.reads_keyword rfl hk hlead hrest)).bind h

theorem goes_eatWord_none {k : Kind} (h : rest.ahead ≠ .name) (mode : Mode) (made : List Shape) :
    E.Goes (eatWord k) ⟨rest, mode, made⟩ false ⟨rest, .operator, made⟩ := by
  refine (goes_look _ _ _ _).bind (.of_neg ?_ (goes_pure _ _))
  rw [Text.ahead] at h
  simp [h]

section
variable (hl : limits.Endless)
include hl

theorem goes_takeKeyword {k : Kind} (hk : k ∈ statementKeywords) (hlead : Leads lead)
    (hrest : rest.Settled) {mode : Mode} (hcode : mode.isCode = true) {depth : Nat}
    (made : List Shape) :
    (atDepth limits depth).Goes (takeWord k none)
      ⟨(Shape.word k lead gap).source ++ rest, mode, made⟩
      () ⟨rest, .operator, Shape.word k lead gap :: made⟩ :=
  goes_takeWord hl (mode.reads_keyword hcode hk hlead hrest) k none

/-- A keyword is taken where it comes next. -/
theorem goes_eatWord {k : Kind} (hk : k ∈ statementKeywords) (hlead : Leads lead)
    (hrest : rest.Settled) {depth : Nat} (mode : Mode) (made : List Shape) :
    (atDepth limits depth).Goes (eatWord k)
      ⟨(Shape.word k lead gap).source ++ rest, mode, made⟩ true
      ⟨rest, .operator, Shape.word k lead gap :: made⟩ := by
  refine (goes_look_behind _ _ _ _ (Mode.operator.reads_keyword rfl hk hlead hrest)).bind ?_
  refine .of_pos (by simp [Kind.spells_iff hk]) ?_
  exact (goes_takeKeyword hl hk hlead hrest rfl made).bind (goes_pure _ _)

/-- A clause is read where its keyword comes next. -/
theorem goes_clause? {k : Kind} (hk : k ∈ statementKeywords) (hlead : Leads lead)
    (hrest : rest.Settled) {kind : Kind} {field : Field} {body : Parser Unit} {depth : Nat}
    {more : Text} {x : Shape}
    (hbody : (atDepth limits depth).Goes body ⟨rest, .operator, [Shape.word k lead gap]⟩ ()
      ⟨more, .operator, [x, Shape.word k lead gap]⟩) (mode : Mode) (made : List Shape) :
    (atDepth limits depth).Goes (clause? k kind field body)
      ⟨(Shape.word k lead gap).source ++ rest, mode, made⟩ ()
      ⟨more, .operator, .node kind (some field) [Shape.word k lead gap, x] :: made⟩ := by
  refine (goes_look_behind _ _ _ _ (Mode.operator.reads_keyword rfl hk hlead hrest)).bind ?_
  refine .of_pos (by simp [Kind.spells_iff hk]) ?_
  exact (goes_nodeOf hl ((goes_takeKeyword hl hk hlead hrest rfl _).bind hbody)).bind
    (goes_label _ _ _ _ _)

/-! ## Names and parentheses of a statement -/

/-- A name in a slot is read again, on a new line too. -/
theorem goes_name (n : Name) (hlead : Leads lead) (hrest : rest.Settled) {depth : Nat}
    (field : Field) (stops : List Kind) (mode : Mode) (made : List Shape) :
    (atDepth limits depth).Goes (Grammar.name field stops)
      ⟨((Shape.ident n gap).led lead).source ++ rest, mode, made⟩ ()
      ⟨rest, .operator, ((Shape.ident n gap).led lead).withField field :: made⟩ := by
  have hread := Mode.operator.reads_led_name rfl n hlead hrest
  refine (goes_sees _ _ _ _).bind ?_
  rw [hread.ahead]
  exact (goes_leaf hl hread .ident).bind (goes_label _ _ _ _ _)

omit hl in
theorem goes_typeAscription?_none (h : rest.ahead ≠ .colon) (field : Field) (mode : Mode)
    (made : List Shape) :
    E.Goes (typeAscription? field) ⟨rest, mode, made⟩ () ⟨rest, .operator, made⟩ :=
  (goes_sees _ _ _ _).bind (.of_neg (by simpa using h) (goes_pure _ _))

omit hl in
theorem settled_enclosed (field : Field) (e : Expr) (rest : Text) :
    Text.Settled (Shape.sourceAll (Shape.enclosed field e) ++ rest) :=
  settled_of_solid (solid_cons (by decide) (by decide) (by decide) _)

/-- **An expression in parentheses that belong to a statement is read again.** -/
theorem goes_enclosed (e : Expr) {depth : Nat} (hdepth : e.levels ≤ depth) (hrest : rest.Settled)
    (field : Field) (mode : Mode) (made : List Shape) :
    (atDepth limits depth).Goes (parenthesized field)
      ⟨Shape.sourceAll (Shape.enclosed field e) ++ rest, mode, made⟩ ()
      ⟨rest, .operator, (Shape.enclosed field e).reverse ++ made⟩ := by
  have hends := ends_gap_of_settled hrest
  have hclose := Mode.operator.reads_sign .rParen rfl hends none
  have hbehind := ends_gap (Mode.operator.solid_sign .rParen rfl none gap rest)
  have hlegible := Expr.legible hl e
  have hopen := Mode.operator.reads_sign .lParen rfl
    (ends_gap (hlegible.opens gap _ hbehind).solid) none
  have hdeep : 4 * e.height + 2 ≤ depth := by
    unfold Expr.levels at hdepth
    omega
  have hinside := hlegible.goes_closed hdeep hbehind (by rw [hclose.ahead]; decide) .operator
    (Shape.sign .lParen none gap :: made)
  have hsource : Shape.sourceAll (Shape.enclosed field e) ++ rest =
      (Shape.sign .lParen none gap).source ++ ((e.shape gap).source ++
        ((Shape.sign .rParen none gap).source ++ rest)) := by
    simp [Shape.enclosed, Shape.sourceAll]
  rw [hsource]
  exact (goes_expect hl hopen).bind ((goes_callIn hinside).bind (goes_expect hl hclose))

end

end Setting

end ActionScript
