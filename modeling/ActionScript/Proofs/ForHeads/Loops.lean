import ActionScript.Proofs.ForHeads.Operators
import ActionScript.Proofs.Following
import ActionScript.Proofs.Semicolons.Loops

/-!
# The head of a `for`

The head of a `for` is read with `in` left to the loop, and then the loop looks for that word: if it
comes next, the loop runs over a collection, so in all other loops it does not.

* `Shape.Reserved`: what is known of the head in a loop and of the text behind the head.
* `Setting.lays_forStatement`: a loop is so.
* `Setting.reserves_atDepth`, `State.lays_run`: **all loops are so**, at every depth and in whole
  parses.
-/

set_option autoImplicit false

namespace ActionScript

open ActionScript.Parser ActionScript.Grammar

/-! ## Loops -/

/-- The next token, read behind an operand, is the word `in`. -/
def Place.seesIn [Alphabet] (p : Place) : Bool := (State.glimpse (p.next .operator).1).isWord "in"

namespace Shape

/-- The child is in a slot for the head of a loop. -/
def InHead (c : Shape) : Prop := c.slot? = some .left ∨ c.slot? = some .initializer

/-- In a loop the head leaves `in` to the loop; if it is no loop over a collection, that word does
not come next behind the head. -/
def Reserved [Alphabet] (kind : Kind) (kids : List Shape) (rest : Text) : Prop :=
  kind ∈ forKinds → ∀ before c behind, kids = before ++ c :: behind → c.InHead →
    c.LeavesIn ∧ (kind = .forStmt → (Place.start (sourceAll behind ++ rest)).seesIn = false)

theorem reserved_of_not_mem [Alphabet] (kind : Kind) (kids : List Shape) (rest : Text)
    (h : kind ∉ forKinds) :
    Reserved kind kids rest := fun hkind => absurd hkind h

end Shape

namespace Shape

variable {kind : Kind} {kids front behind : List Shape} {head : Shape} {rest : Text}

theorem not_inHead_of_slot? {c : Shape} (h : c.slot? = none) : ¬c.InHead := by
  simp [InHead, h]

theorem reserved_of_forall [Alphabet] (h : ∀ c ∈ kids, ¬c.InHead) : Reserved kind kids rest := by
  rintro - before c behind rfl hc
  exact absurd hc (h c (by simp))

/-- A loop with one head. -/
theorem reserved_of_head [Alphabet] (hfront : ∀ c ∈ front, ¬c.InHead)
    (hbehind : ∀ c ∈ behind, ¬c.InHead)
    (hhead : head.LeavesIn)
    (hrest : kind = .forStmt → (Place.start (sourceAll behind ++ rest)).seesIn = false) :
    Reserved kind (front ++ head :: behind) rest := by
  intro _ before c others heq hc
  rcases List.append_eq_append_iff.1 heq with ⟨ms, rfl, hms⟩ | ⟨ms, rfl, hms⟩
  · cases ms with
    | nil =>
      obtain ⟨rfl, rfl⟩ := List.cons.inj hms
      exact ⟨hhead, hrest⟩
    | cons m ms =>
      obtain ⟨-, rfl⟩ := List.cons.inj hms
      exact absurd hc (hbehind c (by simp))
  · cases ms with
    | nil =>
      obtain ⟨rfl, rfl⟩ := List.cons.inj hms
      exact ⟨hhead, hrest⟩
    | cons m ms =>
      obtain ⟨rfl, -⟩ := List.cons.inj hms
      exact absurd hc (hfront c (by simp))

end Shape

/-- Children have been added, but none that is the head of the loop. -/
def State.AddsBeside (s t : State) : Prop := s.Adds (fun c => ¬c.InHead) t

namespace Setting

variable [Alphabet] {E : Setting} {s u : State}

/-- The head of a loop leaves `in` to it, if there is one. -/
theorem exists_forHead (hE : E.Restrains) (s : State) :
    (E.val forHead s = false ∧ (E.after forHead s).children = s.children) ∨
    (E.val forHead s = true ∧ ∃ kind kids,
      (E.after forHead s).children = .node kind none kids :: s.children ∧
      (Shape.node kind none kids).LeavesIn) := by
  rw [forHead, val_bind, after_bind, val_look, after_look]
  split
  · rw [val_bind, after_bind, val_pure, after_pure]
    have hhead :=
      leavesIn_after hE leavesIn_variableHead (State.leavesIn_length (s.inMode .operator))
    have hmakes : (s.inMode .operator).Makes (E.after variableHead (s.inMode .operator)) := by
      rw [variableHead]
      exact makes_node _
    exact .inr ⟨rfl, exists_made hmakes hhead⟩
  · split
    · exact .inl ⟨rfl, rfl⟩
    · rw [val_bind, after_bind, val_pure, after_pure]
      have hrule : (Rule.expression .comma { noIn := true }).LeavesIn := rfl
      exact .inr ⟨rfl, hE.exists_node hrule (s.inMode .operator)⟩

/-! ## Around the head -/

theorem addsBeside_takeWord (keyword : Kind) : s.AddsBeside (E.after (takeWord keyword none) s) :=
  adds_takeWord (fun _ => Shape.not_inHead_of_slot?) keyword

theorem addsBeside_eatWord (keyword : Kind) : s.AddsBeside (E.after (eatWord keyword) s) :=
  adds_eatWord (fun _ => Shape.not_inHead_of_slot?) keyword

theorem addsBeside_expect (kind : Kind) : s.AddsBeside (E.after (expect kind) s) :=
  adds_expect (fun _ => Shape.not_inHead_of_slot?) kind

theorem addsBeside_callIn {field : Field} (hfield : field ≠ .left ∧ field ≠ .initializer)
    (rule : Rule) : s.AddsBeside (E.after (callIn field rule) s) :=
  adds_callIn (fun c hc => by simpa [Shape.InHead, hc] using hfield) rule

/-- A clause that may be left out. -/
theorem addsBeside_clause {field : Field} (hfield : field ≠ .left ∧ field ≠ .initializer)
    (kind : Kind) {next : Parser (Kind × Unit)} (hnext : ∀ t, State.AddsBeside t (E.after next t)) :
    s.AddsBeside (E.after (do
      when (!(← sees kind)) (expression field)
      next) s) := by
  refine adds_bind (.of_eq (after_sees kind ▸ rfl)) (adds_bind ?_ (hnext _))
  exact adds_when (addsBeside_callIn hfield _)

/-- What comes behind the head of a loop over a collection. -/
def collection (each : Bool) : Parser (Kind × Unit) := do
  takeWord .inKw none
  expression .right
  expect .rParen
  statementIn .body
  return (if each then .forEachInStmt else .forInStmt, ())

/-- What comes behind the head of any other loop. -/
def forClauses : Parser (Kind × Unit) := do
  expect .semicolon
  when (!(← sees .semicolon)) (expression .condition)
  expect .semicolon
  when (!(← sees .rParen)) (expression .update)
  expect .rParen
  statementIn .body
  return (.forStmt, ())

theorem addsBeside_collection (each : Bool) : s.AddsBeside (E.after (collection each) s) := by
  refine adds_bind (addsBeside_takeWord _) (adds_bind (addsBeside_callIn (by decide) _) ?_)
  exact adds_bind (addsBeside_expect _) (adds_bind (addsBeside_callIn (by decide) _) (.of_eq rfl))

theorem addsBeside_forClauses : s.AddsBeside (E.after forClauses s) := by
  refine adds_bind (addsBeside_expect _) (addsBeside_clause (by decide) _ fun _ => ?_)
  refine adds_bind (addsBeside_expect _) (addsBeside_clause (by decide) _ fun _ => ?_)
  exact adds_bind (addsBeside_expect _) (adds_bind (addsBeside_callIn (by decide) _) (.of_eq rfl))

omit [Alphabet] in
theorem avoids_collection (each : Bool) : (collection each).Avoids forKinds True True := by
  simp [collection]

omit [Alphabet] in
theorem avoids_forClauses : forClauses.Avoids forKinds True True := by
  simp [forClauses]

/-- A loop over a collection puts its head into a slot of its own. -/
def forCollection (each : Bool) : Parser (Kind × Unit) := label .left >>= fun _ => collection each

/-- Any other loop; it may have no head. -/
def forOther (each headed : Bool) : Parser (Kind × Unit) := do
  when each (report (.expected .inKw))
  when headed (label .initializer)
  forClauses

/-- What comes behind the opening parenthesis. -/
def forRest (each : Bool) : Parser (Kind × Unit) := do
  let headed ← forHead
  let inFollows ← seesWord "in"
  if headed && inFollows then forCollection each else forOther each headed

omit [Alphabet] in
theorem forStatement_eq : forStatement = node (do
    takeWord .forKw none
    let each ← eatWord .eachKw
    expect .lParen
    forRest each) := rfl

/-! ## Whole loops -/

/-- Behind a run from `u` the loop is as it should be. -/
def MakesReserved (E : Setting) (p : Parser (Kind × Unit)) (u : State) : Prop :=
  (E.after p u).aborted = none →
    Shape.Reserved (E.val p u).1 (E.after p u).children.reverse (E.after p u).place.rest

/-- Without a head there is nothing to be said. -/
theorem makesReserved_forOther (each : Bool) (hu : ∀ c ∈ u.children, ¬c.InHead) :
    E.MakesReserved (forOther each false) u := by
  intro _
  refine Shape.reserved_of_forall fun c hc => ?_
  obtain ⟨more, hmore, hbeside⟩ : u.AddsBeside (E.after (forOther each false) u) := by
    refine adds_bind (adds_when (.of_eq ?_)) (adds_bind (.of_eq rfl) addsBeside_forClauses)
    simp
  rw [List.mem_reverse, hmore, List.mem_append] at hc
  exact hc.elim (hbeside c) (hu c)

section
variable (hE : E.Lays Shape.Reserved)
include hE

/-- **Behind its head a loop is as it should be**: what follows stands behind the head, and it
begins with the text that was left there. -/
theorem makesReserved_of_addsBeside {front : List Shape} {head : Shape} {p : Parser (Kind × Unit)}
    (hp : p.Avoids forKinds True True) (hchildren : u.children = head :: front)
    (hfront : ∀ c ∈ front, ¬c.InHead) (hhead : head.LeavesIn) (hadds : u.AddsBeside (E.after p u))
    (hsees : (E.val p u).1 = .forStmt → u.place.seesIn = false) : E.MakesReserved p u := by
  intro ha
  obtain ⟨-, htext, -⟩ := lays_of_avoids (s := u) Shape.reserved_of_not_mem hE hp ha
  obtain ⟨more, hmore, hbeside⟩ := hadds
  rw [State.ahead, State.ahead, hmore, hchildren, List.reverse_append, Shape.sourceAll_append,
    List.append_assoc, List.append_cancel_left_eq] at htext
  rw [hmore, hchildren, List.reverse_append, List.reverse_cons, List.append_assoc,
    List.singleton_append]
  refine Shape.reserved_of_head (fun c hc => hfront c (List.mem_reverse.1 hc))
    (fun c hc => hbeside c (List.mem_reverse.1 hc)) hhead fun hkind => ?_
  rw [htext]
  exact hsees hkind

section
variable {front : List Shape} {head : Shape} (hchildren : u.children = head :: front)
  (hfront : ∀ c ∈ front, ¬c.InHead) (hhead : head.LeavesIn)
include hchildren hfront hhead

theorem makesReserved_forCollection (each : Bool) : E.MakesReserved (forCollection each) u := by
  refine makesReserved_of_addsBeside hE (u := u.labelLast .left) (avoids_collection each)
    (State.labelLast_children _ _ hchildren) hfront (hhead.withField _)
      (addsBeside_collection each) ?_
  intro hkind
  change (if each then Kind.forEachInStmt else .forInStmt) = .forStmt at hkind
  cases each <;> cases hkind

theorem makesReserved_forOther_headed (each : Bool) (hsees : u.place.seesIn = false) :
    E.MakesReserved (forOther each true) u := by
  have hreport : (E.after (when each (report (.expected .inKw))) u).children = u.children ∧
      (E.after (when each (report (.expected .inKw))) u).place = u.place := by
    rw [after_when]
    split <;> simp
  rw [MakesReserved, forOther, after_bind, after_bind, val_bind, val_bind]
  generalize E.after (when each (report (.expected .inKw))) u = t at hreport ⊢
  rw [after_when, if_pos rfl, after_label]
  exact makesReserved_of_addsBeside hE avoids_forClauses
    (State.labelLast_children _ _ (hreport.1.trans hchildren)) hfront (hhead.withField _)
    addsBeside_forClauses fun _ => by rw [State.labelLast_place, hreport.2, hsees]

end

theorem makesReserved_forRest (hin : E.Restrains) (hs : ∀ c ∈ s.children, ¬c.InHead) (each : Bool) :
    E.MakesReserved (forRest each) s := by
  rw [MakesReserved, forRest, after_bind, val_bind]
  have hhead := exists_forHead hin s
  generalize E.after forHead s = t at hhead ⊢
  rw [after_bind, val_bind, after_seesWord, val_seesWord]
  rcases hhead with ⟨hnone, hchildren⟩ | ⟨hheaded, kind, kids, hchildren, hleaves⟩
  · rw [hnone, Bool.false_and, if_neg Bool.false_ne_true]
    exact makesReserved_forOther each (u := t.inMode .operator)
      (by rwa [State.inMode_children, hchildren])
  · rw [hheaded, Bool.true_and]
    split
    · exact makesReserved_forCollection hE (u := t.inMode .operator) hchildren hs hleaves each
    · rename_i hsees
      exact makesReserved_forOther_headed hE (u := t.inMode .operator) hchildren hs hleaves each
        (Bool.not_eq_true _ ▸ hsees)

/-- **A loop leaves `in` to itself.** -/
theorem lays_forStatement (hin : E.Restrains) : s.Lays Shape.Reserved (E.after forStatement s) := by
  have havoids : Parser.Avoids forKinds True True (do
      takeWord .forKw none
      let each ← eatWord .eachKw
      expect .lParen
      forRest each) := by
    simp +decide [forRest, forCollection, forOther, avoids_collection, avoids_forClauses]
  rw [forStatement_eq]
  refine lays_node (lays_of_avoids Shape.reserved_of_not_mem hE havoids) ?_
  obtain ⟨more, hmore, hbeside⟩ : (s.enter E.limits []).AddsBeside (E.after (do
      takeWord .forKw none
      let _ ← eatWord .eachKw
      expect .lParen) (s.enter E.limits [])) :=
    adds_bind (addsBeside_takeWord _) (adds_bind (addsBeside_eatWord _) (addsBeside_expect _))
  rw [State.enter_children, List.append_nil] at hmore
  rw [after_bind, after_bind] at hmore
  rw [after_bind, after_bind, after_bind, val_bind, val_bind, val_bind]
  generalize E.after (expect .lParen) _ = t at hmore ⊢
  exact makesReserved_forRest hE hin (fun c hc => hbeside c (hmore ▸ hc)) _

/-! ## At every depth -/

/-- Statements but loops keep what is known of loops. -/
theorem lays_reserved {α : Type} {p : Parser α} (hp : p.Avoids forKinds True True) :
    s.Lays Shape.Reserved (E.after p s) := lays_of_avoids Shape.reserved_of_not_mem hE hp

theorem lays_wordStatement (hin : E.Restrains) (g : Glimpse) :
    s.Lays Shape.Reserved (E.after (wordStatement g) s) := by
  unfold wordStatement
  split
  case h_3 => exact lays_forStatement hE hin
  all_goals exact lays_reserved hE (by simp +decide)

theorem lays_statementRule (hin : E.Restrains) :
    s.Lays Shape.Reserved (E.after statementRule s) := by
  rw [statementRule, after_bind]
  refine (lays_reserved hE (p := look .exprStart) (by simp)).trans ?_
  split
  case h_4 => exact lays_wordStatement hE hin _
  all_goals exact lays_reserved hE (by simp +decide)

end

/-- **All loops are as they should be**, at every depth. -/
theorem reserves_atDepth (limits : Limits) (depth : Nat) :
    (atDepth limits depth).Lays Shape.Reserved := by
  induction depth with
  | zero => exact lays_zero Shape.reserved_of_not_mem limits
  | succ depth ih =>
    intro rule s
    rw [atDepth_succ]
    cases rule with
    | statement => exact lays_statementRule ih (restrains_atDepth limits depth)
    | expression min r => exact lays_reserved ih (avoids_expressionRule min r)
    | unary => exact lays_reserved ih (avoids_unaryRule (by decide) (by decide) (by decide) trivial)
    | construction =>
      exact lays_reserved ih (avoids_constructionRule (by decide) (by decide) (by decide) trivial)
    | type => exact lays_reserved ih avoids_typeRule
    | element => exact lays_reserved ih (avoids_elementRule (by decide) trivial)

end Setting

/-- All loops of a parse are as they should be. -/
theorem State.lays_run [Alphabet] (limits : Limits) (text : Text) :
    (State.start text).Lays Shape.Reserved (State.run limits text) :=
  Setting.lays_reserved (E := Setting.atDepth limits limits.maxDepth)
    (Setting.reserves_atDepth limits _)
    (p := sourceFile) (by simp +decide [sourceFile])

end ActionScript
