import ActionScript.Proofs.Avoiding
import ActionScript.Proofs.Markup.Tags

/-!
# The `else` of an `if`

An `else` belongs to the nearest `if` that has none.  A statement that could still take one, because
it ends in an `if` without `else`, is never followed by one, so what stands between a condition and
its `else` is no such statement.

* `Tree.Node.RightOpen`: a statement that could still take an `else`.  `Shape.RightOpen` says the
  same of shapes.
* `Setting.Binds`: behind a statement that is right-open no `else` comes next.
* `not_rightOpen_of_parseWithin`: **no branch in front of an `else` is right-open**, whatever the
  text.
-/

set_option autoImplicit false

namespace ActionScript

open ActionScript.Parser ActionScript.Grammar

/-- The kinds of statements that end in a statement in the body slot. -/
def Kind.bodied : List Kind :=
  [.whileStmt, .forStmt, .forInStmt, .forEachInStmt, .withStmt, .labeledStmt]

/-- A statement that ends in an `if` without `else`. -/
inductive Tree.Node.RightOpen : Tree.Node → Prop
  | bare {n : Node} (hkind : n.kind = .ifStmt) (hbare : n.inField .alternative = []) : n.RightOpen
  | alternative {n clause body : Node} (hkind : n.kind = .ifStmt) (hclause : clause ∈ n.nodes)
    (hfield : clause.field = some .alternative) (hbody : body ∈ clause.nodes)
    (hslot : body.field = some .body) (hopen : body.RightOpen) : n.RightOpen
  | body {n body : Node} (hkind : n.kind ∈ Kind.bodied) (hbody : body ∈ n.nodes)
    (hslot : body.field = some .body) (hopen : body.RightOpen) : n.RightOpen

instance : Kind.Special (.ifStmt :: Kind.bodied) := ⟨by decide⟩

instance : Kind.Special [.ifStmt] := ⟨by decide⟩

/-! ## Shapes -/

namespace Shape

/-- The same of shapes. -/
inductive RightOpen : Shape → Prop
  | bare {field : Option Field} {kids : List Shape}
    (hbare : ∀ c ∈ kids, c.slot? ≠ some .alternative) : RightOpen (.node .ifStmt field kids)
  | alternative {field : Option Field} {kind : Kind} {kids inner : List Shape} {body : Shape}
    (hclause : .node kind (some .alternative) inner ∈ kids) (hbody : body ∈ inner)
    (hslot : body.slot? = some .body) (hopen : RightOpen body) :
    RightOpen (.node .ifStmt field kids)
  | body {kind : Kind} {field : Option Field} {kids : List Shape} {body : Shape}
    (hkind : kind ∈ Kind.bodied) (hbody : body ∈ kids) (hslot : body.slot? = some .body)
    (hopen : RightOpen body) : RightOpen (.node kind field kids)

/-- The slot that a statement fills makes no difference. -/
@[simp] theorem rightOpen_withField {f : Field} {s : Shape} :
    (s.withField f).RightOpen ↔ s.RightOpen := by
  constructor <;> intro h <;> cases s <;> cases h <;>
    first
      | exact .bare ‹_›
      | exact .alternative ‹_› ‹_› ‹_› ‹_›
      | exact .body ‹_› ‹_› ‹_› ‹_›

/-- What follows a condition is not right-open if an `else` follows it. -/
def Branched (kind : Kind) (children : List Shape) : Prop :=
  kind = .ifStmt → (∃ a ∈ children, a.slot? = some .alternative) →
    ∀ c ∈ children, c.slot? = some .consequence → ¬c.RightOpen

end Shape

namespace State

/-- The word `else` comes next. -/
def AtElse [Alphabet] (s : State) : Prop :=
  (s.place.next .operator).1.kind = .name ∧
  Kind.elseKw.spells (s.place.next .operator).1.text = true

/-- What has been made last is not right-open if an `else` comes next, unless the parse has been
stopped. -/
def Bound [Alphabet] (s : State) : Prop :=
  s.aborted = none → ∀ c outer, s.children = c :: outer → c.RightOpen → ¬s.AtElse

end State

namespace Setting

variable [Alphabet]

/-- The rules keep branches closed, and statements are bound. -/
structure Binds (E : Setting) : Prop where
  retains : E.Retains Shape.Branched False
  bound : ∀ s, (E.apply .statement s).Bound

variable {E : Setting} {s : State}

/-- What ends with a node of another kind is bound. -/
theorem bound_of_closes {p : Parser Unit}
    (hp : p.Closes fun kind => kind ∉ .ifStmt :: Kind.bodied) : (E.after p s).Bound := by
  intro _ c outer hc hopen
  obtain ⟨kind, kids, outer', hchildren, hkind⟩ := exists_end (E := E) (s := s) hp
  rw [hchildren, List.cons.injEq] at hc
  obtain ⟨rfl, -⟩ := hc
  cases hopen with
  | bare => exact absurd (List.mem_cons_self) hkind
  | alternative => exact absurd (List.mem_cons_self) hkind
  | body hmem => exact absurd (List.mem_cons_of_mem _ hmem) hkind

namespace Binds

variable (hE : E.Binds)
include hE

/-- Behind a body that is right-open no `else` comes next. -/
theorem not_atElse_of_body (hs : s.Slots (· ≠ .body))
    (ha : (E.after (statementIn .body) s).aborted = none)
    (hopen : ∃ b ∈ (E.after (statementIn .body) s).children, b.slot? = some .body ∧ b.RightOpen) :
    ¬(E.after (statementIn .body) s).AtElse := by
  obtain ⟨kind, kids, hmakes⟩ := E.makes .statement s
  have hchildren : (E.after (statementIn .body) s).children =
      .node kind (some .body) kids :: s.children := State.labelLast_children _ _ hmakes
  obtain ⟨b, hb, hslot, hright⟩ := hopen
  rw [hchildren, List.mem_cons] at hb
  rcases hb with rfl | hb
  · have hbound := hE.bound s (by simpa [statementIn, callIn] using ha) _ _ hmakes
      (Shape.rightOpen_withField.1 hright)
    simpa [State.AtElse, statementIn, callIn] using hbound
  · exact absurd rfl (hs b hb _ hslot)

/-- A statement that ends in a body is bound like the body. -/
theorem bound_bodied {kind : Kind} (hkind : kind ≠ .ifStmt) (hs : s.Slots (· ≠ .body))
    (outer : List Shape) : ((E.after (statementIn .body) s).close outer kind).Bound := by
  intro ha c rest hc hopen
  rw [State.close_children, List.cons.injEq] at hc
  obtain ⟨rfl, -⟩ := hc
  refine not_atElse_of_body hE hs ha ?_
  cases hopen with
  | bare => exact absurd rfl hkind
  | alternative => exact absurd rfl hkind
  | body _ hbody hslot hright => exact ⟨_, List.mem_reverse.1 hbody, hslot, hright⟩

/-! ## An `if` and its `else` -/

omit hE in
/-- What a conditional holds in front of its `else`: the condition and the branch. -/
theorem exists_branch (s : State) : ∃ (u : State) (kind : Kind) (kids : List Shape),
    u.Slots (· = .condition) ∧
    (E.apply .statement u).children = .node kind none kids :: u.children ∧
    E.after (takeWord .ifKw none >>= fun _ => parenthesized .condition >>= fun _ =>
      statementIn .consequence) (s.enter E.limits []) =
        (E.apply .statement u).labelLast .consequence := by
  obtain ⟨kind, kids, hmakes⟩ := E.makes .statement (E.after (parenthesized .condition)
    ((s.enter E.limits []).takeAs E.limits .ifKw none))
  refine ⟨_, kind, kids, slots_after (by simp [parenthesized, expression]) ?_, hmakes, rfl⟩
  exact slots_after (p := takeWord .ifKw none) (by simp) (State.slots_enter_nil _)

/-- The `else` of a conditional, if it comes next. -/
def elsePart : Parser Unit := clause? .elseKw .elseClause .alternative (statementIn .body)

omit hE in
theorem after_elsePart_of_not (h : ¬s.AtElse) : E.after elsePart s = s.inMode .operator := by
  simp only [elsePart, clause?, after_bind, val_look, after_look, after_when, glimpse_kind,
    glimpse_text]
  rw [if_neg (by simpa [State.AtElse] using h)]

/-- Behind an `else` whose body is right-open no other comes next. -/
theorem exists_elsePart (h : s.AtElse) : ∃ inner,
    (E.after elsePart s).children = .node .elseClause (some .alternative) inner :: s.children ∧
    ((E.after elsePart s).aborted = none → (∃ b ∈ inner, b.slot? = some .body ∧ b.RightOpen) →
      ¬(E.after elsePart s).AtElse) := by
  have hslots : ((E.after (takeWord .elseKw none) ((s.inMode .operator).enter E.limits []))).Slots
      (· ≠ .body) :=
    slots_after (slots_takeWord.2 (by simp)) (State.slots_enter_nil _)
  have hbody := not_atElse_of_body hE hslots
  simp only [elsePart, clause?, after_bind, val_look, after_look, after_when, glimpse_kind,
    glimpse_text]
  rw [if_pos (by simpa [State.AtElse] using h)]
  rw [after_nodeOf, after_bind, after_label]
  refine ⟨_, State.labelLast_children _ _ (State.close_children _ _ _), fun ha hopen => ?_⟩
  rw [State.labelLast_aborted, State.close_aborted] at ha
  rw [State.AtElse, State.labelLast_place, State.close_place]
  obtain ⟨b, hb, hslot, hright⟩ := hopen
  exact hbody ha ⟨b, List.mem_reverse.1 hb, hslot, hright⟩

/-- What a conditional is made of. -/
def ifInside : Parser Unit :=
  (takeWord .ifKw none >>= fun _ => parenthesized .condition >>= fun _ =>
    statementIn .consequence) >>= fun _ => elsePart

omit hE in
theorem after_ifStatement (s : State) : E.after ifStatement s =
    (E.after ifInside (s.enter E.limits [])).close s.children .ifStmt := by
  rw [ifStatement, after_nodeOf]
  simp only [ifInside, elsePart, after_bind]

/-- **The branch in front of an `else` is not right-open**, and a conditional with an `else` is
bound like the body of that. -/
theorem branched_ifInside (ha : (E.after ifInside (s.enter E.limits [])).aborted = none) :
    Shape.Branched .ifStmt (E.after ifInside (s.enter E.limits [])).children.reverse ∧
      ((E.after ifInside (s.enter E.limits [])).close s.children .ifStmt).Bound := by
  obtain ⟨u, kind, kids, hslots, hmakes, hafter⟩ := exists_branch (E := E) s
  have hchildren := State.labelLast_children _ .consequence hmakes
  rw [ifInside, after_bind, hafter] at ha ⊢
  have hbound := hE.bound u (by simpa using (E.leads_after elsePart _).aborted ha) _ _ hmakes
  have hslot {c : Shape} (hc : c ∈ u.children) {f : Field} (hf : c.slot? = some f) :
      f = .condition :=
    hslots c hc f hf
  by_cases helse : ((E.apply .statement u).labelLast .consequence).AtElse
  · obtain ⟨inner, hinner, hopen⟩ := exists_elsePart hE helse
    have hclosed : ¬(Shape.node kind none kids).RightOpen := fun h =>
      hbound h (by simpa [State.AtElse] using helse)
    rw [hchildren] at hinner
    refine ⟨fun _ _ c hc hconsequence hright => ?_, fun _ c outer hc hright => ?_⟩
    · simp only [hinner, List.mem_reverse, List.mem_cons] at hc
      rcases hc with rfl | rfl | hc
      · cases hconsequence
      · exact hclosed (Shape.rightOpen_withField.1 hright)
      · cases hslot hc hconsequence
    · rw [State.close_children, List.cons.injEq, hinner] at hc
      obtain ⟨rfl, -⟩ := hc
      refine hopen ha ?_
      cases hright with
      | bare hbare =>
        exact absurd rfl (hbare (.node .elseClause (some .alternative) inner) (by simp))
      | alternative hclause hbody hfield hright =>
        simp only [List.mem_reverse, List.mem_cons] at hclause
        rcases hclause with hclause | hclause | hclause
        · cases hclause
          exact ⟨_, hbody, hfield, hright⟩
        · cases hclause
        · cases hslot hclause rfl
      | body hkind => exact absurd hkind (by decide)
  · have hnone {a : Shape} (ha : a ∈ Shape.node kind (some .consequence) kids :: u.children) :
        a.slot? ≠ some .alternative := by
      intro hfield
      rcases List.mem_cons.1 ha with rfl | ha
      · cases hfield
      · cases hslot ha hfield
    rw [after_elsePart_of_not helse]
    refine ⟨fun _ ⟨a, ha, hfield⟩ => absurd hfield (hnone ?_), fun _ c outer hc hright => helse⟩
    rwa [State.inMode_children, hchildren, List.mem_reverse] at ha

theorem bound_ifStatement : (E.after ifStatement s).Bound := by
  rw [after_ifStatement]
  intro ha
  rw [State.close_aborted] at ha
  exact (branched_ifInside hE ha).2 (by rwa [State.close_aborted])

/-! ## The other statements -/

theorem bound_whileStatement : (E.after whileStatement s).Bound := by
  have hslots : (parenthesized .condition).Slots (· ≠ .body) := by
    simp [parenthesized, expression]
  rw [whileStatement, after_nodeOf, after_bind, after_bind]
  exact bound_bodied hE (by decide)
    (slots_after hslots (slots_after (slots_takeWord.2 (by simp)) (State.slots_enter_nil _))) _

theorem bound_withStatement : (E.after withStatement s).Bound := by
  have hslots : (parenthesized .object).Slots (· ≠ .body) := by
    simp [parenthesized, expression]
  rw [withStatement, after_nodeOf, after_bind, after_bind]
  exact bound_bodied hE (by decide)
    (slots_after hslots (slots_after (slots_takeWord.2 (by simp)) (State.slots_enter_nil _))) _

theorem bound_labeledStatement : (E.after labeledStatement s).Bound := by
  have hname : (name .label []).Slots (· ≠ .body) := by
    simp [name, rejectUnless, reject, missing, leaf, peek]
  rw [labeledStatement, after_nodeOf, after_bind, after_bind]
  exact bound_bodied hE (by decide)
    (slots_after (slots_expect _ _) (slots_after hname (State.slots_enter_nil _))) _

/-- The clauses in the head of a `for`. -/
def forClauses (each headed : Bool) : Parser Unit := do
  when each (report (.expected .inKw))
  when headed (label .initializer)
  expect .semicolon
  when (!(← sees .semicolon)) (expression .condition)
  expect .semicolon
  when (!(← sees .rParen)) (expression .update)
  expect .rParen

/-- The rest of the head of a `for … in`. -/
def forIn : Parser Unit := do
  label .left
  takeWord .inKw none
  expression .right
  expect .rParen

/-- The beginning of a `for`. -/
def forStart : Parser (Bool × Bool × Bool) := do
  takeWord .forKw none
  let each ← eatWord .eachKw
  expect .lParen
  let headed ← forHead
  let inFollows ← seesWord "in"
  return (each, headed, inFollows)

omit hE in
theorem after_forStatement (s : State) : E.after forStatement s =
    let start := E.val forStart (s.enter E.limits [])
    let t := E.after forStart (s.enter E.limits [])
    if start.2.1 && start.2.2 then
      (E.after (statementIn .body) (E.after forIn t)).close s.children
        (if start.1 then .forEachInStmt else .forInStmt)
    else
      (E.after (statementIn .body) (E.after (forClauses start.1 start.2.1) t)).close s.children
        .forStmt := by
  rw [forStatement, after_node]
  simp only [forStart, forIn, forClauses, after_bind, val_bind, after_pure, val_pure,
    after_ite, val_ite]
  split <;> rfl

theorem bound_forStatement : (E.after forStatement s).Bound := by
  have hstart : forStart.Slots (· ≠ .body) := by
    simp [forStart, forHead, variableHead]
  have hin : forIn.Slots (· ≠ .body) := by
    simp [forIn, expression]
  have hclauses (each headed : Bool) : (forClauses each headed).Slots (· ≠ .body) := by
    simp [forClauses, expression]
  have hbefore := slots_after (E := E) hstart (State.slots_enter_nil (s := s) E.limits)
  rw [after_forStatement]
  dsimp only
  split
  · refine bound_bodied hE ?_ (slots_after hin hbefore) _
    split <;> decide
  · exact bound_bodied hE (by decide) (slots_after (hclauses _ _) hbefore) _

omit [Alphabet] in
omit hE in
/-- A declaration is no statement that ends in another one. -/
theorem closes_declaration (keyword : Kind) :
    (declaration keyword).Closes fun kind => kind ∉ .ifStmt :: Kind.bodied := by
  rw [declaration, closes_node, yields_bind]
  exact not_mem_declarationBody (by decide) keyword

omit [Alphabet] in
omit hE in
theorem closes_expressionStatement :
    expressionStatement.Closes fun kind => kind ∉ .ifStmt :: Kind.bodied := by
  simp +decide [expressionStatement]

theorem bound_plainWordStatement : (E.after plainWordStatement s).Bound := by
  rw [plainWordStatement, after_bind]
  split
  · exact bound_of_closes (closes_declaration _)
  · rw [after_bind, after_ite]
    split
    · rw [after_bind, after_ite]
      split
      · exact bound_labeledStatement hE
      · exact bound_of_closes closes_expressionStatement
    · exact bound_of_closes closes_expressionStatement

theorem bound_wordStatement (g : Glimpse) : (E.after (wordStatement g) s).Bound := by
  unfold wordStatement
  split
  case h_1 => exact bound_ifStatement hE
  case h_3 => exact bound_forStatement hE
  case h_4 => exact bound_whileStatement hE
  case h_6 => exact bound_withStatement hE
  case h_15 =>
    rw [after_bind, after_ite]
    split
    · exact bound_of_closes (by simp +decide [useNamespaceDirective])
    · exact bound_plainWordStatement hE
  case h_21 => exact bound_plainWordStatement hE
  all_goals
    exact bound_of_closes
      (by simp +decide [switchStatement, doStatement, tryStatement, jumpStatement, valueStatement,
        importStatement, includeDirective, packageDeclaration])

/-- **No `else` comes next behind a statement that is right-open.** -/
theorem bound_statementRule : (E.after statementRule s).Bound := by
  rw [statementRule, after_bind]
  split
  case h_3 =>
    rw [after_bind, after_ite]
    split
    · exact bound_of_closes (not_mem_annotated (by decide))
    · exact bound_of_closes closes_expressionStatement
  case h_4 => exact bound_wordStatement hE _
  all_goals
    exact bound_of_closes (by simp +decide [block, braced, sees, peek, expressionStatement])

/-! ## Branches stay closed -/

omit [Alphabet] in
omit hE in
theorem branched_of_not_mem (kind : Kind) (children : List Shape) (h : kind ∉ [Kind.ifStmt]) :
    Shape.Branched kind children := fun hkind => absurd (hkind ▸ List.mem_singleton_self _) h

/-- What makes no conditional keeps branches closed. -/
theorem keeps_branched {α : Type} {p : Parser α} (hp : p.Avoids [.ifStmt] True True) :
    E.Keeps Shape.Branched False p s := keeps_of_avoids branched_of_not_mem hE.retains hp

theorem keeps_ifStatement : E.Keeps Shape.Branched False ifStatement s := by
  have hinside : E.Keeps Shape.Branched False ifInside (s.enter E.limits []) :=
    keeps_branched hE (by simp +decide [ifInside, elsePart])
  intro hs htame
  rw [after_ifStatement] at htame ⊢
  have htame := htame.of_close
  exact (hinside (State.every_enter_nil _) htame).close hs (branched_ifInside hE htame.aborted).1

theorem keeps_wordStatement (g : Glimpse) : E.Keeps Shape.Branched False (wordStatement g) s := by
  unfold wordStatement
  split
  case h_1 => exact keeps_ifStatement hE
  all_goals exact keeps_branched hE (by simp +decide)

theorem keeps_statementRule : E.Keeps Shape.Branched False statementRule s := by
  refine .bind (fun hs _ => hs) ?_
  split
  case h_4 => exact keeps_wordStatement hE _
  all_goals exact keeps_branched hE (by simp +decide)

end Binds

/-! ## At every depth -/

/-- **Statements are bound, and branches stay closed**, at every depth. -/
theorem binds_atDepth (limits : Limits) (depth : Nat) : (atDepth limits depth).Binds := by
  induction depth with
  | zero =>
    refine ⟨retains_zero Binds.branched_of_not_mem limits, fun s => ?_⟩
    change (State.apply limits 0 .statement s).Bound
    rw [apply_zero]
    exact bound_of_closes (by simp +decide)
  | succ depth ih =>
    refine ⟨fun rule s => ?_, fun s => ?_⟩
    · have hrule (h : (atDepth limits depth).Keeps Shape.Branched False (Grammar.rule rule) s) :
          (atDepth limits (depth + 1)).Keeps Shape.Branched False (.call rule) s := h
      refine hrule ?_
      cases rule with
      | statement => exact ih.keeps_statementRule
      | expression min r => exact ih.keeps_branched (avoids_expressionRule min r)
      | unary =>
        exact ih.keeps_branched (avoids_unaryRule (by decide) (by decide) (by decide) trivial)
      | construction =>
        exact ih.keeps_branched
          (avoids_constructionRule (by decide) (by decide) (by decide) trivial)
      | type => exact ih.keeps_branched avoids_typeRule
      | element => exact ih.keeps_branched (avoids_elementRule (by decide) trivial)
    · rw [atDepth_succ]
      exact ih.bound_statementRule

end Setting

/-- All branches of a parse are closed. -/
theorem State.branched_run [Alphabet] {limits : Limits} {text : Text}
    (ha : (State.run limits text).aborted = none) :
    (State.run limits text).Every Shape.Branched := by
  have hkeeps : (Setting.atDepth limits limits.maxDepth).Keeps Shape.Branched False sourceFile
      (State.start text) :=
    (Setting.binds_atDepth limits _).keeps_branched (by simp +decide [sourceFile])
  exact hkeeps (fun c hc => (by cases hc)) ⟨ha, fun h => h.elim⟩

/-! ## Trees -/

namespace Tree.Node

/-- A slot is empty if none of the shapes fills it. -/
theorem inField_eq_nil_iff {n : Node} {p : Progress} {ss : List Shape}
    (hchildren : n.children = (p.layAll ss).1) (f : Field) :
    n.inField f = [] ↔ ∀ s ∈ ss, s.slot? ≠ some f := by
  have hin := (isMadeOf_of_children hchildren).inField f
  constructor
  · intro hnil s hs hslot
    rw [hnil, List.forall₂_nil_left_iff, List.filter_eq_nil_iff] at hin
    exact hin s hs (by simp [hslot])
  · intro hnone
    rwa [List.filter_eq_nil_iff.2 fun s hs => by simpa using hnone s hs,
      List.forall₂_nil_right_iff] at hin

/-- A node that is right-open is laid out from a shape that is. -/
theorem RightOpen.shape {n : Node} (h : n.RightOpen) {p : Progress} {ss : List Shape}
    (hchildren : n.children = (p.layAll ss).1) : (Shape.node n.kind n.field ss).RightOpen := by
  induction h generalizing p ss with
  | bare hkind hbare =>
    rw [hkind]
    exact .bare ((inField_eq_nil_iff hchildren _).1 hbare)
  | alternative hkind hclause hfield hbody hslot _ ih =>
    obtain ⟨q, inner, hmem, hinner, -⟩ := exists_shape_of_mem_nodes hchildren hclause
    obtain ⟨r, kids, hmem', hkids, -⟩ := exists_shape_of_mem_nodes hinner hbody
    rw [hkind]
    rw [hfield] at hmem
    exact .alternative hmem hmem' hslot (ih hkids)
  | body hkind hbody hslot _ ih =>
    obtain ⟨q, kids, hmem, hkids, -⟩ := exists_shape_of_mem_nodes hchildren hbody
    exact .body hkind hmem hslot (ih hkids)

end Tree.Node

/-- **An `else` binds to the nearest `if`.**  Whatever the text, erroneous or not: the branch that
stands in front of an `else` is no statement that ends in an `if` without `else`. -/
theorem not_rightOpen_of_parseWithin [Alphabet] {limits : Limits} {text : Text} {p : Parse}
    (h : parseWithin limits text = .ok p) :
    ∀ n ∈ p.tree.root.descendants, n.kind = .ifStmt → n.inField .alternative ≠ [] →
      ∀ c ∈ n.nodes, c.field = some .consequence → ¬c.RightOpen := by
  intro n hn hkind halternative c hc hfield hopen
  obtain ⟨-, -, p, kids, -, -, -, hchildren, -, -, -, hevery⟩ :=
    liesIn_of_every h (State.branched_run (aborted_of_parseWithin h)) n hn
  rw [Shape.every_node] at hevery
  obtain ⟨q, inner, hmem, hinner, -⟩ := Tree.Node.exists_shape_of_mem_nodes hchildren hc
  rw [Ne, Tree.Node.inField_eq_nil_iff hchildren] at halternative
  push Not at halternative
  exact hevery.1 hkind halternative _ hmem hfield (hopen.shape hinner)

/-- Two conditionals share two `else`: the inner one takes the first. -/
theorem not_rightOpen_of_parseWithin_nested :
    ∃ p, parseWithin {} "if (a) if (b) c; else d; else e;".toList = .ok p ∧
      (∃ n ∈ p.tree.root.descendants, n.kind = .ifStmt ∧ n.inField .alternative ≠ []) ∧
      ∀ n ∈ p.tree.root.descendants, n.kind = .ifStmt → n.inField .alternative ≠ [] →
        ∀ c ∈ n.nodes, c.field = some .consequence → ¬c.RightOpen := by
  obtain ⟨p, hp, -⟩ := exists_parseWithin (Limits.endless_maxDepth 256)
    "if (a) if (b) c; else d; else e;".toList
  obtain ⟨n, hn, htest⟩ := exists_descendant hp (fun n => n.kind == .ifStmt &&
    !(n.inField .alternative).isEmpty) (by decide +kernel)
  rw [Bool.and_eq_true, Bool.not_eq_true', ← Bool.not_eq_true, List.isEmpty_iff] at htest
  exact ⟨p, hp, ⟨n, hn, eq_of_beq htest.1, htest.2⟩, not_rightOpen_of_parseWithin hp⟩

end ActionScript
