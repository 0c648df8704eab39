import ActionScript.Proofs.Building
import ActionScript.Proofs.Depth
import ActionScript.Proofs.Layout

/-!
# What a parse gives

A parse that is not stopped ends with one root, whose tokens are those read from the beginning of
the text to its end, and the tree of that root is built without a fault.

* `State.broken_run`: only a limit on nodes can break requirements.
* `State.Outcome`, `State.run_outcome`: what the state behind a whole parse holds.
* `State.Outcome.parseWithin_eq`: the tree of the parse.
* `State.run_aborted`, `exists_parseWithin`: a parse without limits on nodes and time is not
  stopped, so it gives a tree.
-/

set_option autoImplicit false

namespace ActionScript

/-! ## What is read -/

theorem Place.read_source [Alphabet] (p : Place) (modes : List Mode) :
    (p.read modes).1.flatMap Token.source ++ (p.read modes).2.rest = p.rest := by
  induction modes generalizing p with
  | nil => rfl
  | cons mode modes ih => simp [ih, Place.next_append]

/-- A token is kept with its text. -/
theorem Shape.Keeps.source_eq {t : Token} {s : Shape} (h : s.Keeps t) : s.source = t.source := by
  cases s with
  | node kind field children => exact h.elim
  | token kind field leading text trailing =>
    obtain ⟨rfl, rfl, rfl, -⟩ := h
    rw [Shape.source, Token.source]

theorem Shape.sourceAll_of_keeps {ts : List Token} {ss : List Shape}
    (h : List.Forall₂ Shape.Keeps ts ss) : Shape.sourceAll ss = ts.flatMap Token.source := by
  induction h with
  | nil => rw [Shape.sourceAll, List.flatMap_nil]
  | cons h _ ih => rw [Shape.sourceAll, List.flatMap_cons, h.source_eq, ih]

/-! ## The state behind a whole parse -/

/-- What the state behind a whole parse of a text holds: one root, with `kids` and then the end of
the text as its children, and in these the tokens that are read in some modes one after the other,
the last one in operator mode. -/
structure State.Outcome [Alphabet] (s : State) (text : Text) (modes : List Mode) (kids : List Shape)
    (last : Token) : Prop where
  children : s.children =
    [.node .sourceFile none (kids ++ [.token .eof none last.leading last.text last.trailing])]
  keeps : List.Forall₂ Shape.Keeps ((Place.start text).read modes).1 (Shape.tokensAll kids)
  ne_eof : ∀ token ∈ ((Place.start text).read modes).1, token.kind ≠ .eof
  last_eq : last = (((Place.start text).read modes).2.next .operator).1
  last_kind : last.kind = .eof
  unbroken : s.broken = false
  reports : s.tokenReports =
    ((Place.start text).read (modes ++ [.operator])).1.filterMap Token.report?

/-- Requirements are only broken once the limit on nodes has stopped the parse. -/
theorem State.broken_run [Alphabet] {limits : Limits} {text : Text}
    (h : ¬(State.run limits text).OutOfNodes) :
    (State.run limits text).broken = false := by
  obtain ⟨t, hconsumes, -, -, hrun⟩ := State.run_eq limits text
  rw [hrun] at h ⊢
  have hleft : ¬t.OutOfNodes := fun ht => h ((t.takeAs_outOfNodes limits .eof none).2 ht)
  rw [State.close_broken, State.takeAs_broken, hconsumes.broken hleft, State.enter_broken]
  rfl

/-- **A parse that is not stopped has read the whole text.** -/
theorem State.run_outcome [Alphabet] {limits : Limits} {text : Text}
    (h : (State.run limits text).aborted = none) :
    ∃ modes kids last, (State.run limits text).Outcome text modes kids last := by
  have hunbroken := State.broken_run (State.not_outOfNodes h)
  obtain ⟨t, hconsumes, hmode, heof, hrun⟩ := State.run_eq limits text
  rw [hrun] at h hunbroken ⊢
  have ha : t.aborted = none := (State.takes_takeAs t limits .eof none h).1
  obtain ⟨modes, taken, hplace, htokens, hkeeps, hne, hreports⟩ := hconsumes.reads ha
  have henter : ((State.start text).enter limits []).place = Place.start text := by
    rcases (State.start text).enter_cases limits [] with ⟨hp, -⟩ | ⟨hna, -⟩
    · exact hp
    · exact absurd (hconsumes.aborted ha) hna
  rw [henter] at hplace hkeeps hne hreports
  have hlast : t.token = (((Place.start text).read modes).2.next .operator).1 := by
    rw [State.token, hmode, hplace]
  refine ⟨modes, t.children.reverse, t.token, ?_, ?_, hne, hlast, ?_, hunbroken, ?_⟩
  · simp
  · rw [htokens]
    simpa using hkeeps
  · rw [hlast, ← hplace]
    exact heof
  · have hstart : ((State.start text).enter limits []).tokenReports = [] := by
      rw [tokenReports, State.enter_reports]
      rfl
    rw [hstart, List.nil_append] at hreports
    rw [Place.read_append, List.filterMap_append, ← hreports, ← hplace]
    change (t.takeAs limits .eof none).tokenReports = _
    simp only [takeAs_tokenReports, State.token, hmode, Place.read_cons, Place.read_nil,
      List.filterMap_cons, List.filterMap_nil]
    cases (t.place.next .operator).1.report? <;> rfl

namespace State.Outcome

variable {s : State} {text : Text} {modes : List Mode} {kids : List Shape} {last : Token}

/-- The end of the text has no text of its own. -/
theorem last_text [Alphabet] (h : s.Outcome text modes kids last) :
    last.text = [] ∧ last.trailing = [] := by
  have hkind := h.last_kind
  rw [h.last_eq] at hkind ⊢
  obtain ⟨htext, htrailing, -⟩ := Place.next_of_eof hkind
  exact ⟨htext, htrailing⟩

/-- The root has the whole text as its source. -/
theorem sourceAll_eq [Alphabet] (h : s.Outcome text modes kids last) :
    Shape.sourceAll (kids ++ [.token .eof none last.leading last.text last.trailing]) = text := by
  have hread := (Place.start text).read_source modes
  have hnext := ((Place.start text).read modes).2.next_append .operator
  have hkind := h.last_kind
  rw [h.last_eq] at hkind
  rw [(Place.next_of_eof hkind).2.2, List.append_nil, ← h.last_eq] at hnext
  rw [Shape.sourceAll_append, ← Shape.sourceAll_tokensAll kids, Shape.sourceAll_of_keeps h.keeps]
  simp only [Shape.sourceAll, Shape.source, List.append_nil]
  rw [← Token.source, hnext]
  exact hread

end State.Outcome

/-- **The tree of a parse that is not stopped** is that of its root. -/
theorem State.Outcome.parseWithin_eq [Alphabet] {limits : Limits} {text : Text} {modes : List Mode}
    {kids : List Shape} {last : Token} (h : (State.run limits text).Outcome text modes kids last)
    (ha : (State.run limits text).aborted = none) :
    parseWithin limits text = .ok
      ⟨Tree.ofStem text ⟨.sourceFile, none,
          (kids ++ [Shape.token .eof none last.leading last.text last.trailing]).reverse⟩,
        (State.run limits text).reports.reverse⟩ := by
  have hbuild := Tree.ofEvents?_eventsAll .sourceFile none
    (kids ++ [.token .eof none last.leading last.text last.trailing])
  rw [h.sourceAll_eq] at hbuild
  simp only [parseWithin, ha, h.children, List.reverse_singleton, hbuild]

/-- A parse that gives a tree was not stopped. -/
theorem aborted_of_parseWithin [Alphabet] {limits : Limits} {text : Text} {p : Parse}
    (h : parseWithin limits text = .ok p) : (State.run limits text).aborted = none := by
  rw [parseWithin] at h
  cases ha : (State.run limits text).aborted with
  | none => rfl
  | some reason =>
    simp only [ha] at h
    cases h

/-- What is behind a parse that gives a tree: the tree lies over the text, its root has the children
that were gathered, laid out, and the diagnostics are what was reported. -/
theorem exists_outcome [Alphabet] {limits : Limits} {text : Text} {p : Parse}
    (h : parseWithin limits text = .ok p) :
    ∃ modes kids last, (State.run limits text).Outcome text modes kids last ∧
      p.tree.text = text ∧ p.tree.root.kind = .sourceFile ∧
      p.tree.root.fullSpan = ⟨0, text.size⟩ ∧
      p.tree.root.children = (Progress.layAll { nodes := 1 }
        (kids ++ [.token .eof none last.leading last.text last.trailing])).1 ∧
      p.diagnostics = (State.run limits text).reports.reverse := by
  have ha := aborted_of_parseWithin h
  obtain ⟨modes, kids, last, hout⟩ := State.run_outcome ha
  have hparse := hout.parseWithin_eq ha
  rw [h, Except.ok.injEq] at hparse
  subst hparse
  have hoffset := (Progress.laid_layAll { nodes := 1 }
    (kids ++ [.token .eof none last.leading last.text last.trailing])).offset_eq
  rw [Shape.sourceAll_tokensAll, hout.sourceAll_eq, Nat.zero_add] at hoffset
  refine ⟨modes, kids, last, hout, rfl, rfl, ?_, ?_, rfl⟩
  · simp only [Tree.ofStem, Tree.root, Tree.Node.fullSpan, Progress.info, List.reverse_reverse]
    rw [hoffset]
  · simp only [Tree.ofStem, Tree.root, List.reverse_reverse]

/-! ## Parses that are not stopped -/

/-- There is no limit on nodes and no deadline. -/
def Limits.Endless (limits : Limits) : Prop :=
  limits.maxNodes = none ∧ ∀ n, limits.late n = false

theorem Limits.endless_maxDepth (depth : Nat) : Limits.Endless { maxDepth := depth } :=
  ⟨rfl, fun _ => rfl⟩

namespace State

variable {limits : Limits}

theorem enter_aborted (h : limits.Endless) (s : State) (children : List Shape) :
    (s.enter limits children).aborted = s.aborted := by
  simp only [enter, beginNode, h.1]

theorem takeAs_aborted [Alphabet] (h : limits.Endless) (s : State) (kind : Kind)
    (field : Option Field) :
    (s.takeAs limits kind field).aborted = s.aborted := by
  simp only [takeAs, h.2, Bool.and_false, Bool.false_eq_true, if_false]

theorem repeatWhile_aborted {step : State → Bool × State}
    (hstep : ∀ s, (step s).2.aborted = s.aborted) (limit : Nat) (s : State) :
    (repeatWhile step limit s).aborted = s.aborted := by
  induction limit generalizing s with
  | zero => rfl
  | succ limit ih =>
    have hs := hstep s
    rw [repeatWhile]
    split
    · rename_i t ht
      rw [ht] at hs
      rw [ih]
      exact hs
    · rename_i t ht
      rw [ht] at hs
      exact hs

variable [Alphabet]

/-- Without limits no parser stops the parse, unless a rule does. -/
theorem exec_aborted (h : limits.Endless) {apply : Rule → State → State}
    (happly : ∀ rule s, (apply rule s).aborted = s.aborted) {α : Type} (p : Parser α) (s : State) :
    (p.exec limits apply s).2.aborted = s.aborted := by
  induction p generalizing s with
  | done value => rfl
  | andThen first next ihFirst ihNext => exact (ihNext _ _).trans (ihFirst s)
  | look mode => rfl
  | ahead distance => rfl
  | take field => exact takeAs_aborted h s _ _
  | takeWord keyword field => exact takeAs_aborted h s _ _
  | report error => exact report_aborted s error
  | node body ih => exact (ih _).trans (enter_aborted h s _)
  | wrap field body ih => exact (ih _).trans (enter_aborted h s _)
  | label field => exact labelLast_aborted s field
  | loop body ih => exact repeatWhile_aborted ih _ s
  | call rule => exact happly rule s
  | require mode kind => rfl

theorem apply_aborted (h : limits.Endless) (depth : Nat) (rule : Rule) (s : State) :
    (State.apply limits depth rule s).aborted = s.aborted := by
  induction depth generalizing rule s with
  | zero => exact exec_aborted h (fun _ _ => rfl) _ s
  | succ depth ih => exact exec_aborted h ih _ s

/-- **Without limits a parse is not stopped.** -/
theorem run_aborted (h : limits.Endless) (text : Text) : (State.run limits text).aborted = none :=
  exec_aborted h (apply_aborted h _) _ _

end State

variable [Alphabet]

/-- **Without limits a parse gives a tree**, with what was reported on the way. -/
theorem exists_parseWithin {limits : Limits} (h : limits.Endless) (text : Text) :
    ∃ p, parseWithin limits text = .ok p ∧
      p.diagnostics = (State.run limits text).reports.reverse := by
  have ha := State.run_aborted h text
  obtain ⟨modes, kids, last, hout⟩ := State.run_outcome ha
  exact ⟨_, hout.parseWithin_eq ha, rfl⟩

/-! ## Parses of given texts -/

/-- A node that is found in the tree of a parse. -/
theorem exists_descendant {limits : Limits} {text : Text} {p : Parse}
    (h : parseWithin limits text = .ok p) (test : Tree.Node → Bool)
    (hfound : ((parseWithin limits text).toOption.any fun p =>
      p.tree.root.descendants.any test) = true) :
    ∃ n ∈ p.tree.root.descendants, test n = true := by
  rw [h] at hfound
  exact List.any_eq_true.1 hfound

/-- A parse that passes a test. -/
theorem exists_parse_of_test (limits : Limits) (text : Text) (test : Parse → Bool)
    (h : ((parseWithin limits text).toOption.any test) = true) :
    ∃ p, parseWithin limits text = .ok p ∧ test p = true := by
  cases hp : parseWithin limits text with
  | ok p =>
    rw [hp] at h
    exact ⟨p, rfl, h⟩
  | error e =>
    rw [hp] at h
    cases h

/-- A parse that reports nothing. -/
theorem exists_clean_parse (limits : Limits) (text : Text)
    (h : ((parseWithin limits text).toOption.any fun p => p.diagnostics.isEmpty) = true) :
    ∃ p, parseWithin limits text = .ok p ∧ p.diagnostics = [] := by
  obtain ⟨p, hp, hempty⟩ := exists_parse_of_test limits text _ h
  exact ⟨p, hp, List.isEmpty_iff.1 hempty⟩

end ActionScript
