import ActionScript.Proofs.Semicolons.Restricted

/-!
# Where statements end without a semicolon

A statement may leave its semicolon out in front of `}`, at the end of the text and at a line break.
What comes next is seen when the statement ends, but the token is taken later, by another routine
and perhaps in another mode.  So every such end is marked among the tokens, and each mark waits for
the token behind it.

* `Mark`, `Shape.marks`: the tokens of a shape, with a stop behind each statement that has no
  semicolon.
* `State.Settled`: all stops have their token, or none will come.  `State.Pending`: the last ones
  may still wait, as long as the next token is read as code.
* `Setting.Carries`, `Setting.carries_of_avoids`: **routines that end no statement keep the stops as
  they are**, if the rules do.
-/

set_option autoImplicit false

namespace ActionScript

open ActionScript.Parser ActionScript.Grammar

/-! ## Marks -/

/-- What is noted of a row of shapes: each token, and each end of a statement that has no
semicolon. -/
inductive Mark where
  | token (t : Shape)
  | stop

namespace Mark

/-- The tokens among some marks. -/
def tokens : List Mark → List Shape
  | [] => []
  | .token t :: ms => t :: tokens ms
  | .stop :: ms => tokens ms

/-- The tokens behind each stop are as `P` says. -/
def Each (P : List Shape → Prop) : List Mark → Prop
  | [] => True
  | .token _ :: ms => Each P ms
  | .stop :: ms => P (tokens ms) ∧ Each P ms

variable {P Q : List Shape → Prop} {ms ns : List Mark}

@[simp] theorem tokens_append : tokens (ms ++ ns) = tokens ms ++ tokens ns := by
  induction ms with
  | nil => rfl
  | cons m ms ih => cases m <;> simp [tokens, ih]

theorem each_append : Each P (ms ++ ns) ↔ Each (fun ts => P (ts ++ tokens ns)) ms ∧ Each P ns := by
  induction ms with
  | nil => simp [Each]
  | cons m ms ih => cases m <;> simp [Each, ih, and_assoc]

theorem Each.mono (h : Each P ms) (hpq : ∀ ts, P ts → Q ts) : Each Q ms := by
  induction ms with
  | nil => trivial
  | cons m ms ih =>
    cases m with
    | token t => exact ih h
    | stop => exact ⟨hpq _ h.1, ih h.2⟩

/-- Where one more token follows. -/
theorem each_concat {t : Shape} (h : Each P ms) (hpq : ∀ ts, P ts → Q (ts ++ [t])) :
    Each Q (ms ++ [.token t]) := each_append.2 ⟨h.mono hpq, trivial⟩

/-- A stop at the end may be left out. -/
theorem Each.of_concat_stop (h : Each P (ms ++ [.stop])) : Each P ms := by
  have hfirst := (each_append.1 h).1
  exact hfirst.mono fun ts hts => by rwa [tokens, tokens, List.append_nil] at hts

end Mark

/-- The kinds of statements that need a semicolon. -/
def Kind.terminated : List Kind :=
  [.exprStmt, .returnStmt, .throwStmt, .breakStmt, .continueStmt, .importStmt, .includeDirective,
    .useNamespaceDirective, .namespaceDecl, .functionDecl, .variableDecl, .constantDecl]

namespace Shape

/-- The last of some shapes is a semicolon. -/
def endInSemicolon (ss : List Shape) : Bool := ss.getLast?.any (isToken .semicolon)

/-- A node of the kind needs a semicolon behind such children: a function with a body needs none. -/
def needsSemicolon (kind : Kind) (kids : List Shape) : Bool :=
  Kind.terminated.contains kind &&
    !(kind == .functionDecl && kids.any fun c => c.slot? == some .body)

/-- A statement that needs a semicolon and has none. -/
def isUnended : Shape → Bool
  | .token .. => false
  | .node kind _ kids => needsSemicolon kind kids && !endInSemicolon kids

/-- Variables in the head of a `for`, if that is what stands around them. -/
def isHead : Shape → Bool
  | .token .. => false
  | .node kind field _ => (kind == .variableDecl || kind == .constantDecl) &&
      (field == some .left || field == some .initializer)

/-- The stop behind a child, if there is one. -/
def stopAfter (isFor : Bool) (s : Shape) : List Mark :=
  if s.isUnended && !(isFor && s.isHead) then [.stop] else []

mutual

/-- The tokens of a shape and the stops inside it. -/
def marks : Shape → List Mark
  | .token kind field leading text trailing => [.token (.token kind field leading text trailing)]
  | .node kind _ kids => marksIn (forKinds.contains kind) kids

/-- The tokens and stops of several shapes in a row, the children of a `for` or not. -/
def marksIn (isFor : Bool) : List Shape → List Mark
  | [] => []
  | s :: ss => s.marks ++ (s.stopAfter isFor ++ marksIn isFor ss)

end

@[simp] theorem marks_token (kind : Kind) (field : Option Field) (leading : List Trivia)
    (text : Text) (trailing : List Trivia) : (token kind field leading text trailing).marks =
      [.token (.token kind field leading text trailing)] := by
  rw [marks]

@[simp] theorem marks_node (kind : Kind) (field : Option Field) (kids : List Shape) :
    (node kind field kids).marks = marksIn (forKinds.contains kind) kids := by
  rw [marks]

@[simp] theorem marksIn_nil (isFor : Bool) : marksIn isFor [] = [] := by
  rw [marksIn]

@[simp] theorem marksIn_cons (isFor : Bool) (s : Shape) (ss : List Shape) :
    marksIn isFor (s :: ss) = s.marks ++ (s.stopAfter isFor ++ marksIn isFor ss) := by
  rw [marksIn]

@[simp] theorem marksIn_append (isFor : Bool) (ss ts : List Shape) :
    marksIn isFor (ss ++ ts) = marksIn isFor ss ++ marksIn isFor ts := by
  induction ss with
  | nil => simp
  | cons s ss ih => simp [ih]

@[simp] theorem tokens_stopAfter (isFor : Bool) (s : Shape) :
    Mark.tokens (s.stopAfter isFor) = [] := by
  unfold stopAfter
  split <;> rfl

mutual

@[simp] theorem tokens_marks (s : Shape) : Mark.tokens s.marks = s.tokens := by
  cases s with
  | token kind field leading text trailing => simp [Mark.tokens]
  | node kind field kids => simp [tokens_marksIn _ kids]

@[simp] theorem tokens_marksIn (isFor : Bool) (ss : List Shape) :
    Mark.tokens (marksIn isFor ss) = tokensAll ss := by
  cases ss with
  | nil => simp [Mark.tokens]
  | cons s ss => simp [tokens_marks s, tokens_marksIn isFor ss]

end

@[simp] theorem isUnended_withField (f : Field) (s : Shape) :
    (s.withField f).isUnended = s.isUnended := by
  cases s <;> rfl

/-- The first of some tokens is `}` or starts a line. -/
def Resumes (ts : List Shape) : Prop :=
  ∃ t us, ts = t :: us ∧ (t.kind = .rCurly ∨ t.startsLine = true)

theorem Resumes.append {ts : List Shape} (h : Resumes ts) (us : List Shape) :
    Resumes (ts ++ us) := by
  obtain ⟨t, vs, rfl, ht⟩ := h
  exact ⟨t, vs ++ us, rfl, ht⟩

end Shape

/-! ## What may follow a stop -/

namespace Place

variable [Alphabet]

/-- Behind a statement without a semicolon: `}`, the end of the text or a new line. -/
def EndsStatement (p : Place) : Prop :=
  p.ahead = .rCurly ∨ p.ahead = .eof ∨ (p.next .operator).1.startsLine = true

variable {p : Place} {mode : Mode}

/-- A closing brace is read in all of code. -/
theorem next_kind_of_ahead_rCurly (h : p.ahead = .rCurly) (hmode : mode.isCode = true) :
    (p.next mode).1.kind = .rCurly := by
  cases mode with
  | operator => exact h
  | exprStart => exact exprStart_of_ahead h (by decide)
  | typeArgs =>
    rcases p.next_typeArgs_agree with heq | ⟨-, hmem⟩
    · rw [heq]
      exact h
    · rw [next_operator_kind, h] at hmem
      exact absurd hmem (by decide)
  | xmlTag => cases hmode
  | xmlContent => cases hmode

/-- All of code is at its end alike. -/
theorem ahead_ne_eof (hmode : mode.isCode = true) (h : (p.next mode).1.kind ≠ .eof) :
    p.ahead ≠ .eof := by
  rw [← next_operator_kind, Ne, next_kind_eq_eof]
  rw [Ne, next_kind_eq_eof] at h
  cases mode with
  | operator | exprStart | typeArgs => exact h
  | xmlTag => cases hmode
  | xmlContent => cases hmode

end Place

namespace State

/-- The tokens behind a stop go on as they should, or, read as code, text is at its end there. -/
def Resumed [Alphabet] (s : State) (ts : List Shape) : Prop :=
  Shape.Resumes ts ∨ (Place.start (Shape.sourceAll ts ++ s.place.rest)).ahead = .eof

/-- The same, or the token behind the stop is still to come. -/
def Awaits [Alphabet] (s : State) (ts : List Shape) : Prop :=
  s.Resumed ts ∨ ts = [] ∧ s.place.EndsStatement

/-- All stops among some marks have what should follow them. -/
def Settled [Alphabet] (s : State) (ms : List Mark) : Prop := Mark.Each s.Resumed ms

/-- The last stops may still wait for their token, which will be read as code. -/
def Pending [Alphabet] (s : State) (ms : List Mark) : Prop :=
  s.Settled ms ∨ s.mode.isCode = true ∧ Mark.Each s.Awaits ms

/-- The marks of the open node. -/
def marks (s : State) : List Mark := Shape.marksIn false s.children.reverse

/-- Not stopped, and no semicolon has been missed. -/
structure Unmissed (s : State) : Prop where
  aborted : s.aborted = none
  reports : ∀ d ∈ s.reports, d.cause ≠ .syntactic (.expected .semicolon)

variable {s t : State} {ms : List Mark}

theorem Leads.unmissed (h : s.Leads t) (ht : t.Unmissed) : s.Unmissed :=
  ⟨h.aborted ht.aborted, fun d hd => ht.reports d (h.reports.subset hd)⟩

theorem Unmissed.of_close {outer : List Shape} {kind : Kind} (h : (t.close outer kind).Unmissed) :
    t.Unmissed := ⟨h.aborted, h.reports⟩

variable [Alphabet]

theorem Settled.of_place (h : s.Settled ms) (hp : t.place = s.place) : t.Settled ms := by
  rw [Settled, show t.Resumed = s.Resumed by funext ts; simp only [Resumed, hp]]
  exact h

theorem Pending.of_place (h : s.Pending ms) (hp : t.place = s.place)
    (hmode : s.mode.isCode = true → t.mode.isCode = true) : t.Pending ms := by
  refine h.imp (fun hs => hs.of_place hp) fun ⟨hcode, hs⟩ => ⟨hmode hcode, ?_⟩
  rw [show t.Awaits = s.Awaits by funext ts; simp only [Awaits, Resumed, hp]]
  exact hs

/-- Nothing more is waited for at the end of the text. -/
theorem Pending.settled (h : s.Pending ms) (heof : s.place.ahead = .eof) : s.Settled ms := by
  rcases h with h | ⟨-, h⟩
  · exact h
  · refine h.mono fun ts hts => hts.elim id ?_
    rintro ⟨rfl, -⟩
    refine .inr ?_
    rw [Shape.sourceAll, List.nil_append]
    exact heof

/-- **The next token is what a stop has waited for.** -/
theorem Resumed.take {ts : List Shape} (h : s.Resumed ts) {limits : Limits} {kind : Kind}
    {field : Option Field} (ha : (s.takeAs limits kind field).aborted = none) :
    (s.takeAs limits kind field).Resumed
      (ts ++ [.token kind field s.token.leading s.token.text s.token.trailing]) := by
  obtain ⟨-, hp, -⟩ := takes_takeAs s limits kind field ha
  refine h.imp (fun h => h.append _) fun h => ?_
  have hsource := s.place.next_append s.mode
  have htoken : Shape.sourceAll [.token kind field s.token.leading s.token.text s.token.trailing] =
      s.token.source := by
    simp [Shape.sourceAll, Shape.source, Token.source]
  rw [Shape.sourceAll_append, htoken, List.append_assoc, hp, token, hsource]
  exact h

theorem Awaits.take {ts : List Shape} (h : s.Awaits ts) (hmode : s.mode.isCode = true)
    {limits : Limits} {kind : Kind} {field : Option Field}
    (hkind : s.token.kind = .rCurly → kind = .rCurly)
    (heof : s.token.kind ≠ .eof) (ha : (s.takeAs limits kind field).aborted = none) :
    (s.takeAs limits kind field).Resumed
      (ts ++ [.token kind field s.token.leading s.token.text s.token.trailing]) := by
  rcases h with h | ⟨rfl, h⟩
  · exact h.take ha
  · refine .inl ⟨_, [], rfl, ?_⟩
    rcases h with h | h | h
    · exact .inl (hkind (Place.next_kind_of_ahead_rCurly h hmode))
    · exact absurd h (Place.ahead_ne_eof hmode heof)
    · right
      rw [Shape.startsLine, Shape.tokens_token]
      exact (Place.startsLine_of_isCode hmode).trans h

end State

/-! ## Runs -/

namespace Setting

variable [Alphabet] {E : Setting} {A B C : State → List Mark → Prop} {s : State} {α β : Type}

/-- A run in which no semicolon is missed leads from one condition on the marks to another, whatever
is marked in front of it. -/
def Carries (E : Setting) (A B : State → List Mark → Prop) (p : Parser α) (s : State) : Prop :=
  E.Safe p s → (E.after p s).Unmissed → ∃ added, (E.after p s).marks = s.marks ++ added ∧
    ∀ ms, A s ms → B (E.after p s) (ms ++ added)

theorem Carries.bind {p : Parser β} {f : β → Parser α} (hp : E.Carries A B p s)
    (hf : E.Carries B C (f (E.val p s)) (E.after p s)) : E.Carries A C (p >>= f) s := by
  intro hsafe ht
  obtain ⟨xs, hxs, hA⟩ := hp hsafe.1 ((E.leads_after _ _).unmissed ht)
  obtain ⟨ys, hys, hB⟩ := hf hsafe.2 ht
  refine ⟨xs ++ ys, ?_, fun ms hms => ?_⟩
  · rw [after_bind, hys, hxs, List.append_assoc]
  · rw [← List.append_assoc]
    exact hB _ (hA ms hms)

theorem Carries.mono {A' B' : State → List Mark → Prop} {p : Parser α} (h : E.Carries A B p s)
    (hA : ∀ ms, A' s ms → A s ms) (hB : ∀ t ms, B t ms → B' t ms) : E.Carries A' B' p s := by
  intro hsafe ht
  obtain ⟨xs, hxs, hcarries⟩ := h hsafe ht
  exact ⟨xs, hxs, fun ms hms => hB _ _ (hcarries ms (hA ms hms))⟩

/-- What takes nothing and makes nothing. -/
theorem Carries.of_eq {p : Parser α} (hmarks : (E.after p s).marks = s.marks)
    (h : ∀ ms, A s ms → B (E.after p s) ms) : E.Carries A B p s :=
  fun _ _ =>
    ⟨[], by rw [hmarks, List.append_nil], fun ms hms => by rw [List.append_nil]; exact h ms hms⟩

/-- The condition depends on the place, on the mode and on what has been marked. -/
def Local (A : State → List Mark → Prop) : Prop :=
  ∀ s t : State, ∀ ms, t.place = s.place → t.mode = s.mode → A s ms → A t ms

/-- A run inside a new node. -/
theorem Carries.inside {body : Parser α} {inside : List Shape} (hA : Local A)
    (hbody : E.Carries A B body (s.enter E.limits inside))
    (hsafe : E.Safe body (s.enter E.limits inside))
    (ht : (E.after body (s.enter E.limits inside)).Unmissed) :
    ∃ added, (E.after body (s.enter E.limits inside)).marks =
        Shape.marksIn false inside.reverse ++ added ∧
      ∀ ms, A s ms → B (E.after body (s.enter E.limits inside)) (ms ++ added) := by
  obtain ⟨xs, hxs, hcarries⟩ := hbody hsafe ht
  refine ⟨xs, hxs, fun ms hms => hcarries ms ?_⟩
  rcases s.enter_cases E.limits inside with ⟨hp, hm, -⟩ | ⟨hna, -⟩
  · exact hA _ _ _ hp hm hms
  · exact absurd ((E.leads_after body _).aborted ht.aborted) hna

/-- A node around what a run makes, and the stop behind it. -/
theorem Carries.close {body : Parser α} {kind : Kind} {inside outer : List Shape} (hA : Local A)
    (hbody : E.Carries A B body (s.enter E.limits inside))
    (hsplit : s.marks = Shape.marksIn false outer.reverse ++ Shape.marksIn false inside.reverse)
    (hkind : kind ∉ forKinds) (hsafe : E.Safe body (s.enter E.limits inside))
    (ht : (E.after body (s.enter E.limits inside)).Unmissed)
    (hclose : ∀ ms, B (E.after body (s.enter E.limits inside)) ms →
      C ((E.after body (s.enter E.limits inside)).close outer kind) (ms ++ Shape.stopAfter false
        (.node kind none (E.after body (s.enter E.limits inside)).children.reverse))) :
    ∃ added, ((E.after body (s.enter E.limits inside)).close outer kind).marks = s.marks ++ added ∧
      ∀ ms, A s ms →
        C ((E.after body (s.enter E.limits inside)).close outer kind) (ms ++ added) := by
  obtain ⟨xs, hxs, hcarries⟩ := hbody.inside hA hsafe ht
  generalize E.after body (s.enter E.limits inside) = t at *
  have hfor : forKinds.contains kind = false := by simpa using hkind
  refine ⟨xs ++ Shape.stopAfter false (.node kind none t.children.reverse), ?_, fun ms hms => ?_⟩
  · have hinner :
        Shape.marksIn false t.children.reverse = Shape.marksIn false inside.reverse ++ xs := hxs
    rw [hsplit, State.marks, State.close_children, List.reverse_cons, Shape.marksIn_append,
      Shape.marksIn_cons, Shape.marks_node, hfor, hinner, Shape.marksIn_nil]
    simp only [List.append_assoc, List.append_nil]
  · rw [← List.append_assoc]
    exact hclose _ (hcarries ms hms)

/-- The kinds of nodes that stops concern. -/
def stopKinds : List Kind := Kind.terminated ++ forKinds

omit [Alphabet] in
theorem stopAfter_of_not_mem {kind : Kind} (h : kind ∉ stopKinds) (isFor : Bool)
    (field : Option Field)
    (kids : List Shape) : Shape.stopAfter isFor (.node kind field kids) = [] := by
  have hkind : kind ∉ Kind.terminated := fun hmem => h (List.mem_append_left _ hmem)
  simp [Shape.stopAfter, Shape.isUnended, Shape.needsSemicolon, hkind]

/-- A node of another kind leaves the stops alone. -/
theorem Carries.node {body : Parser (Kind × α)} (hA : Local A) (hB : Local B)
    (hbody : E.Carries A B body (s.enter E.limits []))
    (hkind : (E.val body (s.enter E.limits [])).1 ∉ stopKinds) : E.Carries A B (.node body) s := by
  intro hsafe ht
  rw [after_node] at ht ⊢
  refine hbody.close hA (by simp [State.marks])
    (fun hmem => hkind (List.mem_append_right _ hmem)) hsafe
    ht.of_close fun ms hms => ?_
  rw [stopAfter_of_not_mem hkind, List.append_nil]
  exact hB (E.after body _) _ _ rfl rfl hms

theorem Carries.nodeOf {kind : Kind} {body : Parser Unit} (hA : Local A) (hB : Local B)
    (hbody : E.Carries A B body (s.enter E.limits [])) (hkind : kind ∉ stopKinds) :
    E.Carries A B (Parser.nodeOf kind body) s :=
  .node hA hB (.bind hbody (.of_eq rfl fun _ h => h)) hkind

theorem Carries.label {field : Field} (hA : Local A) : E.Carries A A (.label field) s := by
  intro hsafe _
  obtain ⟨kind, old, kids, outer, hc⟩ := hsafe
  refine ⟨[], ?_, fun ms hms => ?_⟩
  · rw [after_label, State.marks, State.labelLast_children s field hc, State.marks, hc]
    simp [Shape.withField, Shape.stopAfter, Shape.isUnended]
  · rw [List.append_nil]
    exact hA _ _ _ (by simp) (by simp) hms

/-- A repetition does what its steps do. -/
theorem Carries.loop {body : Parser Bool} (h : ∀ t, E.Carries A A body t) :
    E.Carries A A (.loop body) s := by
  intro hsafe ht
  rw [after_loop] at ht ⊢
  replace hsafe : Proceeds (E.Safe body) (fun t => (E.val body t, E.after body t))
    (s.place.rest.length + 1) s := hsafe
  generalize s.place.rest.length + 1 = limit at *
  induction limit generalizing s with
  | zero => exact hsafe.elim
  | succ limit ih =>
    obtain ⟨hstep, hgo⟩ := hsafe
    rw [State.repeatWhile] at ht ⊢
    split at ht
    · rename_i t hst
      obtain ⟨hval, rfl⟩ := Prod.mk.inj hst
      obtain ⟨hmoves, hrest⟩ := hgo hval
      rw [noteStall_of_moves hmoves] at ht ⊢
      have hlead : (E.after body s).Leads _ := .repeatWhile (fun u => E.leads_after body u) limit _
      obtain ⟨xs, hxs, hfirst⟩ := h s hstep (hlead.unmissed ht)
      obtain ⟨ys, hys, hothers⟩ := ih ht hrest
      refine ⟨xs ++ ys, by rw [hys, hxs, List.append_assoc], fun ms hms => ?_⟩
      rw [← List.append_assoc]
      exact hothers _ (hfirst ms hms)
    · rename_i t hst
      obtain ⟨-, rfl⟩ := Prod.mk.inj hst
      exact h s hstep ht

/-- A condition on stops that a run may keep: that none of them waits, or that the next token is
read as code if one does.  With `tags` the next token may also be read as in markup. -/
structure Phase (A : State → List Mark → Prop) (tags : Prop) : Prop where
  isLocal : Local A
  inMode : ∀ s mode ms, (mode.isCode = false → tags) → A s ms → A (s.inMode mode) ms
  pending : ∀ s ms, A s ms → s.Pending ms
  of_settled : ∀ s ms, s.Settled ms → A s ms

theorem phase_settled (tags : Prop) : Phase State.Settled tags where
  isLocal _ _ _ hp _ h := h.of_place hp
  inMode _ _ _ _ h := h.of_place rfl
  pending _ _ h := .inl h
  of_settled _ _ h := h

theorem phase_pending : Phase State.Pending False where
  isLocal _ _ _ hp hm h := h.of_place hp fun hcode => by rwa [hm]
  inMode _ mode _ hmode h := h.of_place rfl fun _ => by
    by_contra hcode
    exact hmode (by simpa using hcode)
  pending _ _ h := h
  of_settled _ _ h := .inl h

/-- **A token settles all stops**, if its kind tells what it is. -/
theorem carries_takeAs (hA : ∀ ms, A s ms → s.Pending ms) {p : Parser α} {kind : Kind}
    {field : Option Field} (hp : E.after p s = s.takeAs E.limits kind field)
    (hkind : E.Safe p s → s.Sees fun t => t.kind ≠ .eof ∧ (t.kind = .rCurly → kind = .rCurly)) :
    E.Carries A State.Settled p s := by
  intro hsafe ht
  rw [hp] at ht ⊢
  obtain ⟨hne, hcurly⟩ := hkind hsafe (State.takes_takeAs s _ _ _ ht.aborted).1
  refine ⟨[.token (.token kind field s.token.leading s.token.text s.token.trailing)], ?_,
    fun ms hms => ?_⟩
  · simp [State.marks, Shape.stopAfter, Shape.isUnended]
  · rcases hA ms hms with h | ⟨hmode, h⟩
    · exact Mark.each_concat h fun ts hts => hts.take ht.aborted
    · exact Mark.each_concat h fun ts hts => hts.take hmode hcurly hne ht.aborted

theorem carries_take (hA : ∀ ms, A s ms → s.Pending ms) (field : Option Field) :
    E.Carries A State.Settled (.take field) s :=
  carries_takeAs hA rfl fun hsafe ha => ⟨hsafe ha, id⟩

theorem carries_takeWord (hA : ∀ ms, A s ms → s.Pending ms) (keyword : Kind)
    (field : Option Field) : E.Carries A State.Settled (.takeWord keyword field) s := by
  refine carries_takeAs hA rfl fun hsafe ha => ?_
  have hname : s.token.kind = .name := (hsafe ha).1
  exact ⟨by rw [hname]; decide, fun hcurly => by rw [hname] at hcurly; cases hcurly⟩

/-- **A parser that ends no statement by itself keeps the stops as they are**, if the rules do. -/
theorem carries_of_avoids {may tags : Prop} (hA : Phase A tags)
    (hE : ∀ rule s, (rule = .statement → may) → E.Carries A A (.call rule) s) {p : Parser α}
    (hp : p.Avoids stopKinds may tags) : E.Carries A A p s := by
  have hpending (s : State) : ∀ ms, A s ms → s.Pending ms := fun ms => hA.pending s ms
  induction p generalizing s with
  | done value => exact .of_eq rfl fun _ h => h
  | andThen first next ihFirst ihNext => exact .bind (ihFirst hp.1) (ihNext _ (hp.2 _))
  | look mode => exact .of_eq rfl fun ms h => hA.inMode s mode ms hp h
  | ahead distance =>
    exact .of_eq rfl fun ms h => hA.inMode s .operator ms (fun h => (by cases h)) h
  | take field => exact (carries_take (hpending s) field).mono (fun _ h => h) hA.of_settled
  | takeWord keyword field =>
    exact (carries_takeWord (hpending s) keyword field).mono (fun _ h => h) hA.of_settled
  | report error =>
    exact .of_eq (by simp [State.marks]) fun ms h => hA.isLocal _ _ _ (by simp) (by simp) h
  | node body ih => exact .node hA.isLocal hA.isLocal (ih hp.1) (hp.2.val E _)
  | wrap field body ih =>
    obtain ⟨hbody, hkind⟩ := hp
    have hkind := hkind.val E (s.enter E.limits ((s.children.take 1).map (Shape.withField field)))
    intro hsafe ht
    obtain ⟨⟨kind, old, kids, outer, hc⟩, -, hsafe⟩ := hsafe
    rw [after_wrap] at ht ⊢
    refine (ih hbody).close hA.isLocal ?_ (fun hmem => hkind (List.mem_append_right _ hmem)) hsafe
      ht.of_close fun ms hms => ?_
    · rw [State.marks, hc]
      simp [Shape.withField, Shape.stopAfter, Shape.isUnended]
    · rw [stopAfter_of_not_mem hkind, List.append_nil]
      exact hA.isLocal (E.after body _) _ _ rfl rfl hms
  | label field => exact .label hA.isLocal
  | loop body ih => exact .loop fun _ => ih hp
  | call rule => exact hE rule s hp
  | require mode kind => exact .of_eq rfl fun ms h => hA.isLocal s _ _ rfl rfl h

end Setting

end ActionScript
