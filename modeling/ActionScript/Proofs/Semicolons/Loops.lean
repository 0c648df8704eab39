import ActionScript.Proofs.Semicolons.Statements

/-!
# The head of a `for`, and whole parses

Variables in the head of a `for` are no statement, though nothing in their node tells them apart; it
is the slot of the `for` that does.  So inside of a `for` the children are marked as its own, and
the stop behind the variables is left out as soon as they are in their slot.

* `State.InFor`: the children of the open node are marked as those of a `for`.
* `Setting.stops_atDepth`, `State.settled_run`: **each stop of a parse has the token that it has
  waited for**, or stands where code is at its end.
-/

set_option autoImplicit false

namespace ActionScript

open ActionScript.Parser ActionScript.Grammar

/-! ## Inside of a `for` -/

namespace Shape

/-- Without the head of a `for` all children are marked alike. -/
theorem marksIn_eq {ss : List Shape} (h : ∀ s ∈ ss, s.isHead = false) :
    marksIn true ss = marksIn false ss := by
  induction ss with
  | nil => rw [marksIn, marksIn]
  | cons s ss ih =>
    rw [List.forall_mem_cons] at h
    rw [marksIn, marksIn, ih h.2, stopAfter, stopAfter, h.1, Bool.and_false, Bool.and_false]

end Shape

namespace State

/-- The children of the open node, marked as those of a `for`, leave stops waiting at most.  `ms` is
what has been marked in front of the node. -/
def InFor [Alphabet] (ms : List Mark) (s : State) : Prop :=
  s.Pending (ms ++ Shape.marksIn true s.children.reverse)

/-- Children have been added, but none that is the head of a `for`. -/
def Extends (s t : State) : Prop := s.Adds (fun c => c.isHead = false) t

variable {s t u : State} {ms : List Mark}

theorem InFor.of_eq [Alphabet] (h : s.InFor ms) (hp : t.place = s.place)
    (hc : t.children = s.children)
    (hm : s.mode.isCode = true → t.mode.isCode = true) : t.InFor ms := by
  rw [InFor, hc]
  exact h.of_place hp hm

end State

namespace Setting

variable [Alphabet] {E : Setting} {s : State} {α β : Type} {ms : List Mark}

/-- From `A` a run in which no semicolon is missed leads to `B`. -/
def Steers (E : Setting) (A : State → Prop) (p : Parser α) (s : State)
    (B : α → State → Prop) : Prop :=
  A s → E.Safe p s → (E.after p s).Unmissed → B (E.val p s) (E.after p s)

theorem Steers.bind {A : State → Prop} {B : β → State → Prop} {C : α → State → Prop} {p : Parser β}
    {f : β → Parser α} (hp : E.Steers A p s B)
    (hf : E.Steers (B (E.val p s)) (f (E.val p s)) (E.after p s) C) : E.Steers A (p >>= f) s C :=
  fun hs hsafe ht => hf (hp hs hsafe.1 ((E.leads_after _ _).unmissed ht)) hsafe.2 ht

/-- What keeps the stops and adds no head keeps them inside of a `for`. -/
theorem Carries.steers {p : Parser α} (h : E.Carries State.Pending State.Pending p s)
    (hadds : s.Extends (E.after p s)) : E.Steers (State.InFor ms) p s fun _ => State.InFor ms := by
  intro hs hsafe ht
  obtain ⟨added, hadded, hcarries⟩ := h hsafe ht
  obtain ⟨more, hmore, hnone⟩ := hadds
  rw [State.marks, State.marks, hmore, List.reverse_append, Shape.marksIn_append,
    List.append_cancel_left_eq] at hadded
  have hcarries := hcarries _ hs
  have hnone : ∀ c ∈ more.reverse, c.isHead = false := fun c hc => hnone c (List.mem_reverse.1 hc)
  rw [State.InFor, hmore, List.reverse_append, Shape.marksIn_append, Shape.marksIn_eq hnone, hadded,
    ← List.append_assoc]
  exact hcarries

omit [Alphabet] in
/-- What fills no slot is no head. -/
theorem isHead_of_slot? {c : Shape} (h : c.slot? = none) : c.isHead = false := by
  cases c with
  | token => rfl
  | node kind field kids =>
    have hfield : field = none := h
    simp [Shape.isHead, hfield]

theorem extends_takeWord (keyword : Kind) : s.Extends (E.after (takeWord keyword none) s) :=
  adds_takeWord (fun _ => isHead_of_slot?) keyword

theorem extends_eatWord (keyword : Kind) : s.Extends (E.after (eatWord keyword) s) :=
  adds_eatWord (fun _ => isHead_of_slot?) keyword

theorem extends_expect (kind : Kind) : s.Extends (E.after (expect kind) s) :=
  adds_expect (fun _ => isHead_of_slot?) kind

theorem extends_callIn {field : Field} (hfield : field ≠ .left ∧ field ≠ .initializer)
    (rule : Rule) : s.Extends (E.after (callIn field rule) s) := by
  refine adds_callIn (fun c hc => ?_) rule
  cases c with
  | token => rfl
  | node kind f kids =>
    have hf : f = some field := hc
    simp [Shape.isHead, hf, hfield]

/-- A head of a `for` has been made, and it waits for its slot. -/
def Heads (ms : List Mark) (headed : Bool) (s : State) : Prop :=
  if headed then ∀ f ∈ [Field.left, .initializer], (s.labelLast f).InFor ms else s.InFor ms

namespace Stops

variable (hE : E.Stops)
include hE

theorem steers_for {p : Parser α} (hp : p.Avoids stopKinds True False)
    (hadds : s.Extends (E.after p s)) :
    E.Steers (State.InFor ms) p s fun _ => State.InFor ms := (carries_pending hE hp).steers hadds

theorem steers_variableHead : E.Steers (State.InFor ms) variableHead s fun _ => Heads ms true := by
  intro hs hsafe ht
  obtain ⟨kind, kids, hchildren, hkind, hcarries⟩ := exists_variableHead hE hsafe ht
  have hpending := hcarries _ hs
  intro f hf
  have hhead : (Shape.node kind (some f) kids).isHead = true := by
    rcases hkind with rfl | rfl <;> simp only [List.mem_cons, List.not_mem_nil, or_false] at hf <;>
      rcases hf with rfl | rfl <;> rfl
  rw [State.InFor, State.labelLast_children _ _ hchildren, List.reverse_cons, Shape.marksIn_append,
    Shape.marksIn_cons, Shape.withField, Shape.stopAfter, hhead, Bool.and_true, Bool.not_true,
    Bool.and_false, ← List.append_assoc]
  simpa using hpending.of_place (by simp) (by simp)

/-- An expression in the head is marked as before, or loses the stop behind it. -/
theorem steers_headExpression (rule : Rule) :
    E.Steers (State.InFor ms) (call rule) s fun _ => Heads ms true := by
  intro hs hsafe ht f hf
  obtain ⟨kind, kids, hmakes⟩ := E.makes rule s
  obtain ⟨added, hadded, hcarries⟩ := hE.pending rule s hsafe ht
  have hpending := hcarries _ hs
  rw [after_call] at hadded hpending ⊢
  rw [State.marks, State.marks, hmakes, List.reverse_cons, Shape.marksIn_append,
    List.append_cancel_left_eq, Shape.marksIn_cons, Shape.marksIn_nil, List.append_nil] at hadded
  rw [State.InFor, State.labelLast_children _ _ hmakes, List.reverse_cons, Shape.marksIn_append,
    Shape.marksIn_cons, Shape.withField, Shape.marks_node, Shape.marksIn_nil, List.append_nil,
    ← List.append_assoc, ← List.append_assoc]
  refine State.Pending.of_place (s := E.apply rule s) ?_ (by simp) (by simp)
  rw [← hadded, ← List.append_assoc, Shape.marks_node] at hpending
  generalize ms ++ Shape.marksIn true s.children.reverse ++ Shape.marksIn
    (forKinds.contains kind) kids = ns
    at hpending ⊢
  cases hhead : (Shape.node kind (some f) kids).isHead with
  | false =>
    have hsame : Shape.stopAfter true (.node kind (some f) kids) =
        Shape.stopAfter false (.node kind none kids) := by
      simp [Shape.stopAfter, hhead, Shape.isUnended]
    rwa [hsame]
  | true =>
    rw [Shape.stopAfter, hhead, Bool.and_true, Bool.not_true, Bool.and_false,
      if_neg Bool.false_ne_true, List.append_nil]
    rw [Shape.stopAfter] at hpending
    split at hpending
    · exact hpending.imp (fun h => h.of_concat_stop) fun h => ⟨h.1, h.2.of_concat_stop⟩
    · rwa [List.append_nil] at hpending

theorem steers_forHead : E.Steers (State.InFor ms) forHead s (Heads ms) := by
  rw [forHead]
  refine .bind (B := fun _ => State.InFor ms) (fun hs _ _ => hs.of_eq rfl rfl fun _ => rfl) ?_
  split
  · exact .bind (steers_variableHead hE) fun hs _ _ => hs
  · split
    · exact fun hs _ _ => hs
    · exact .bind (steers_headExpression hE _) fun hs _ _ => hs

omit hE in
theorem Heads.of_eq {t : State} {headed : Bool} (h : Heads ms headed s) (hp : t.place = s.place)
    (hc : t.children = s.children) (hm : s.mode.isCode = true → t.mode.isCode = true) :
    Heads ms headed t := by
  unfold Heads at *
  split at h
  · rename_i hheaded
    rw [if_pos hheaded]
    intro f hf
    refine (h f hf).of_eq (by simp [hp]) ?_ (by simpa using hm)
    rw [State.labelLast, State.labelLast, hc]
    split <;> simp_all
  · rename_i hheaded
    rw [if_neg hheaded]
    exact h.of_eq hp hc hm

theorem steers_body : E.Steers (State.InFor ms) (statementIn .body) s fun _ => State.InFor ms :=
  steers_for hE (by simp) (extends_callIn (by decide) _)

theorem steers_expect (kind : Kind) :
    E.Steers (State.InFor ms) (expect kind) s fun _ => State.InFor ms :=
  steers_for hE (by simp) (extends_expect kind)

theorem steers_expression {field : Field} (hfield : field ≠ .left ∧ field ≠ .initializer) :
    E.Steers (State.InFor ms) (expression field) s fun _ => State.InFor ms :=
  steers_for hE (by simp) (extends_callIn hfield _)

omit hE in
/-- Once the head is in its slot, it counts as such. -/
theorem steers_label {field : Field} (hfield : field ∈ [Field.left, .initializer]) :
    E.Steers (Heads ms true) (label field) s fun _ => State.InFor ms :=
  fun hs _ _ => hs field hfield

omit hE in
/-- What only looks changes nothing. -/
theorem steers_look {A : State → Prop} {p : Parser α} (hp : E.after p s = s.inMode .operator)
    (hA : A s → A (s.inMode .operator)) : E.Steers A p s fun _ => A := fun hs _ _ => hp ▸ hA hs

theorem steers_forIn {made : Kind × Unit} (hmade : made.1 ∈ forKinds) :
    E.Steers (Heads ms true) (do
      label .left
      takeWord .inKw none
      expression .right
      expect .rParen
      statementIn .body
      return made) s fun made t => t.InFor ms ∧ made.1 ∈ forKinds := by
  refine .bind (steers_label (by decide)) (.bind (steers_for hE (by simp)
    (extends_takeWord _)) ?_)
  refine .bind (steers_expression hE (by decide))
    (.bind (steers_expect hE _) (.bind (steers_body hE) ?_))
  exact fun hs _ _ => ⟨hs, hmade⟩

/-- A clause in the head of a `for` that may be left out. -/
theorem steers_clause {kind : Kind} {field : Field} (hfield : field ≠ .left ∧ field ≠ .initializer)
    {next : Parser (Kind × Unit)} {C : Kind × Unit → State → Prop}
    (hnext : ∀ t, E.Steers (State.InFor ms) next t C) : E.Steers (State.InFor ms) (do
      when (!(← sees kind)) (expression field)
      next) s C := by
  refine .bind (steers_look (after_sees kind) fun hs => hs.of_eq rfl rfl fun _ => rfl)
    (.bind (B := fun _ => State.InFor ms) ?_ (hnext _))
  exact steers_for hE (by simp) (adds_when (extends_callIn hfield _))

theorem steers_forClauses (each headed : Bool) : E.Steers (Heads ms headed) (do
      when each (report (.expected .inKw))
      when headed (label .initializer)
      expect .semicolon
      when (!(← sees .semicolon)) (expression .condition)
      expect .semicolon
      when (!(← sees .rParen)) (expression .update)
      expect .rParen
      statementIn .body
      return (Kind.forStmt, ())) s fun made t => t.InFor ms ∧ made.1 ∈ forKinds := by
  have hfor : Kind.forStmt ∈ forKinds := by decide
  refine .bind (B := fun _ => Heads ms headed) (fun hs _ _ => ?_)
    (.bind (B := fun _ => State.InFor ms) ?_ ?_)
  · rw [after_when]
    split
    · exact Heads.of_eq hs (by simp) (by simp) (by simp)
    · exact hs
  · intro hs _ _
    rw [after_when]
    cases headed with
    | true => exact hs _ (by decide)
    | false => exact hs
  · refine .bind (steers_expect hE _) (steers_clause hE (by decide) fun _ => ?_)
    refine .bind (steers_expect hE _) (steers_clause hE (by decide) fun _ => ?_)
    exact .bind (steers_expect hE _) (.bind (steers_body hE) fun hs _ _ => ⟨hs, hfor⟩)

/-- **Inside of a `for` its head does not count as a statement.** -/
theorem exists_forInside : ∃ body, forStatement = .node body ∧ ∀ (s : State) (ms : List Mark),
    E.Steers (State.InFor ms) body s fun made t => t.InFor ms ∧ made.1 ∈ forKinds := by
  refine ⟨_, rfl, fun s ms => ?_⟩
  refine .bind (steers_for hE (by simp) (extends_takeWord _)) ?_
  refine .bind (steers_for hE (by simp) (extends_eatWord _)) ?_
  refine .bind (steers_expect hE _) ?_
  generalize E.after (expect .lParen) _ = t
  refine .bind (steers_forHead hE) ?_
  generalize E.val forHead t = headed
  refine .bind (steers_look (after_seesWord "in") fun hs => Heads.of_eq hs rfl rfl fun _ => rfl) ?_
  generalize E.val (seesWord "in") _ = inFollows
  split
  · rename_i hin
    obtain ⟨rfl, -⟩ := Bool.and_eq_true_iff.1 hin
    refine steers_forIn hE ?_
    split <;> decide
  · exact steers_forClauses hE _ headed

theorem carries_forStatement : E.Carries State.Pending State.Pending forStatement s := by
  obtain ⟨body, hfor, hbody⟩ := exists_forInside hE
  rw [hfor]
  intro hsafe ht
  rw [after_node] at ht ⊢
  have henter (ms : List Mark) (hms : s.Pending ms) : (s.enter E.limits []).InFor ms := by
    rw [State.InFor, State.enter_children, List.reverse_nil, Shape.marksIn_nil, List.append_nil]
    rcases s.enter_cases E.limits [] with ⟨hp, hm, -⟩ | ⟨hna, -⟩
    · exact hms.of_place hp (by rw [hm]; exact id)
    · exact absurd ((E.leads_after body _).unmissed ht.of_close).aborted hna
  have hinside (ms : List Mark) (hms : s.Pending ms) :=
    hbody _ ms (henter ms hms) hsafe ht.of_close
  generalize E.val body (s.enter E.limits []) = made at *
  generalize E.after body (s.enter E.limits []) = t at *
  refine ⟨(Shape.node made.1 none t.children.reverse).marks ++
    Shape.stopAfter false (.node made.1 none t.children.reverse), ?_, fun ms hms => ?_⟩
  · simp only [State.marks, State.close_children, List.reverse_cons, Shape.marksIn_append,
      Shape.marksIn_cons, Shape.marksIn_nil, List.append_nil]
  · obtain ⟨hpending, hkind⟩ := hinside ms hms
    have hneeds : Shape.needsSemicolon made.1 t.children.reverse = false := by
      simp only [forKinds, List.mem_cons, List.not_mem_nil, or_false] at hkind
      rcases hkind with h | h | h <;> rw [h] <;> rfl
    have hcontains : forKinds.contains made.1 = true := by simpa using hkind
    rw [Shape.marks_node, hcontains, Shape.stopAfter, Shape.isUnended, hneeds]
    simpa using hpending.of_place (t := t.close s.children made.1) rfl id

/-! ## Statements -/

theorem carries_plainWordStatement :
    E.Carries State.Pending State.Pending plainWordStatement s := by
  refine .bind (carries_pending hE (by simp)) ?_
  split
  · exact carries_declaration hE _
  · refine .bind (carries_pending hE (by simp)) ?_
    split
    · refine .bind (carries_pending hE (by simp)) ?_
      split
      · exact carries_pending hE (by simp +decide)
      · exact carries_expressionStatement hE
    · exact carries_expressionStatement hE

theorem carries_wordStatement (g : Glimpse) :
    E.Carries State.Pending State.Pending (wordStatement g) s := by
  unfold wordStatement
  split
  case h_3 => exact carries_forStatement hE
  case h_8 => exact carries_jumpStatement hE (by decide)
  case h_9 => exact carries_jumpStatement hE (by decide)
  case h_10 => exact carries_valueStatement hE (by decide)
  case h_11 => exact carries_valueStatement hE (by decide)
  case h_12 => exact carries_importStatement hE
  case h_13 => exact carries_includeDirective hE
  case h_15 =>
    refine .bind (carries_pending hE (by simp)) ?_
    split
    · exact carries_useNamespaceDirective hE
    · exact carries_plainWordStatement hE
  case h_21 => exact carries_plainWordStatement hE
  all_goals exact carries_pending hE (by simp +decide)

theorem carries_statementRule : E.Carries State.Pending State.Pending statementRule s := by
  refine .bind (carries_pending hE (by simp)) ?_
  split
  case h_3 =>
    refine .bind (carries_pending hE (by simp)) ?_
    split
    · exact carries_annotated hE
    · exact carries_expressionStatement hE
  case h_4 => exact carries_wordStatement hE _
  case h_10 => exact carries_expressionStatement hE
  all_goals exact carries_pending hE (by simp +decide)

end Stops

/-! ## At every depth -/

/-- **The rules keep the stops**, at every depth. -/
theorem stops_atDepth (limits : Limits) (depth : Nat) : (atDepth limits depth).Stops := by
  induction depth with
  | zero =>
    have hgiven {A : State → List Mark → Prop} (rule : Rule) (s : State) :
        (givingUp limits).Carries A A (.call rule) s := fun _ ht => by cases ht.aborted
    have hreject {A : State → List Mark → Prop} {tags : Prop} (hA : Phase A tags) (rule : Rule)
        (s : State) : (atDepth limits 0).Carries A A (.call rule) s := by
      have hkeeps : (givingUp limits).Carries A A (reject .nestingTooDeep) s :=
        carries_of_avoids hA (fun rule s (_ : rule = .statement → True) => hgiven rule s)
          (Parser.avoids_reject .nestingTooDeep)
      intro _ ht
      change (State.apply limits 0 rule s).Unmissed at ht
      change ∃ added, (State.apply limits 0 rule s).marks = _ ∧ ∀ ms, _ →
        A (State.apply limits 0 rule s) _
      rw [apply_zero] at ht ⊢
      exact hkeeps (safe_reject _) ht
    exact ⟨fun rule s _ => hreject (phase_settled True) rule s, hreject phase_pending⟩
  | succ depth ih =>
    have hcall {A : State → List Mark → Prop} {rule : Rule} {s : State}
        (h : (atDepth limits depth).Carries A A (Grammar.rule rule) s) :
        (atDepth limits (depth + 1)).Carries A A (.call rule) s :=
      fun hready => h (safe_rule hready)
    refine ⟨fun rule s hrule => hcall ?_, fun rule s => hcall ?_⟩
    · cases rule with
      | statement => exact absurd rfl hrule
      | expression min r => exact ih.carries_settled (avoids_expressionRule min r)
      | unary => exact ih.carries_unaryRule
      | construction => exact ih.carries_constructionRule
      | type => exact ih.carries_settled avoids_typeRule
      | element => exact ih.carries_settled (avoids_elementRule (by decide) trivial)
    · cases rule with
      | statement => exact ih.carries_statementRule
      | expression min r => exact ih.carries_pending (avoids_expressionRule min r)
      | unary =>
        exact ih.carries_pending (avoids_unaryRule (by decide) (by decide) (by decide) trivial)
      | construction =>
        exact ih.carries_pending
          (avoids_constructionRule (by decide) (by decide) (by decide) trivial)
      | type => exact ih.carries_pending avoids_typeRule
      | element => exact ih.carries_elementRule.mono (fun _ h => h) fun _ _ h => .inl h

end Setting

/-- **Each stop of a parse has the token that it has waited for**, or stands where code is at its
end, unless a semicolon has been missed. -/
theorem State.settled_run [Alphabet] {limits : Limits} {text : Text} {modes : List Mode}
    {kids : List Shape}
    {last : Token} (hout : (State.run limits text).Outcome text modes kids last)
    (hrun : (State.run limits text).Unmissed) :
    Mark.Each (fun ts => Shape.Resumes ts ∨ (Place.start (Shape.sourceAll ts)).ahead = .eof)
      (Shape.marksIn false (kids ++ [.token .eof none last.leading last.text last.trailing])) := by
  let E := Setting.atDepth limits limits.maxDepth
  obtain ⟨hsafe, hmode, heof⟩ :=
    Setting.runs_statements (E := E) (s := (State.start text).enter E.limits [])
  have hE : E.Stops := Setting.stops_atDepth limits limits.maxDepth
  have hstatements := hE.carries_pending (s := (State.start text).enter E.limits [])
    (p := .loop statementRound) (by simp [statementRound])
  replace hstatements := hstatements hsafe
  change (E.after sourceFile (State.start text)).Unmissed at hrun
  have hchildren : (E.after sourceFile (State.start text)).children = _ := hout.children
  have hplace : ((State.start text).enter E.limits []).marks = [] := by simp [State.marks]
  rw [sourceFile_eq, Setting.after_nodeOf, Setting.after_bind, Setting.after_take] at hrun hchildren
  generalize (State.start text).enter E.limits [] = s at *
  generalize E.after (.loop _) s = t at *
  have ht := hrun.of_close
  obtain ⟨added, hadded, hpending⟩ := hstatements ((State.Leads.takeAs t _ _ _).unmissed ht)
  have hsettled : t.Settled t.marks := by
    rw [hadded, hplace]
    exact (hpending [] (.inl trivial)).settled heof
  have hlast := Mark.each_concat hsettled fun ts hts => hts.take ht.aborted
  have hkids : (t.takeAs E.limits t.token.kind none).children.reverse =
      kids ++ [.token .eof none last.leading last.text last.trailing] := by
    simpa using (List.cons.inj hchildren).1
  have hrest : (t.takeAs E.limits t.token.kind none).place.rest = [] := by
    obtain ⟨-, hp, -⟩ := State.takes_takeAs t _ _ _ ht.aborted
    rw [hp, hmode]
    exact (Place.next_of_eof heof).2.2
  have hmarks : t.marks ++ [.token (.token t.token.kind none t.token.leading t.token.text
      t.token.trailing)] = Shape.marksIn false
      (t.takeAs E.limits t.token.kind none).children.reverse := by
    simp [State.marks, Shape.stopAfter, Shape.isUnended]
  rw [← hkids, ← hmarks]
  refine hlast.mono fun ts hts => ?_
  rwa [State.Resumed, hrest, List.append_nil] at hts

end ActionScript
