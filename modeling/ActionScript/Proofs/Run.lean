import ActionScript.Grammar.Exec
import ActionScript.Proofs.Reading

/-!
# What a run does to the state

Each instruction changes the state in one way, and each such change has a name and its small
lemmas here, so that no later proof unfolds them.  What all of them have in common is
`State.Leads`: the place only moves on, a parse that was stopped stays stopped, and what has been
reported stays reported.

* `State.Sees`: what is known of the next token, as long as the parse has not been stopped.
* `State.Finds`: what is known of it even if a deadline has stopped the parse.
* `State.Makes`: exactly one node has been added.
-/

set_option autoImplicit false

namespace ActionScript

/-- What is reported of a token when it is taken. -/
def Token.report? (t : Token) : Option Diagnostic :=
  t.flaw.map fun flaw => ⟨.lexical flaw.error, flaw.span⟩

namespace State

/-- The state with the next token looked at in a mode. -/
def inMode (s : State) (mode : Mode) : State := { s with mode }

/-- The state in which the inside of a new node begins. -/
def enter (s : State) (limits : Limits) (children : List Shape) : State :=
  { s.beginNode limits with children }

/-! ## Looking -/

section
variable (s : State) (mode : Mode)

@[simp] theorem inMode_place : (s.inMode mode).place = s.place := rfl
@[simp] theorem inMode_mode : (s.inMode mode).mode = mode := rfl
@[simp] theorem inMode_children : (s.inMode mode).children = s.children := rfl
@[simp] theorem inMode_reports : (s.inMode mode).reports = s.reports := rfl
@[simp] theorem inMode_aborted : (s.inMode mode).aborted = s.aborted := rfl
@[simp] theorem inMode_stalled : (s.inMode mode).stalled = s.stalled := rfl
@[simp] theorem inMode_token [Alphabet] : (s.inMode mode).token = (s.place.next mode).1 := rfl
@[simp] theorem inMode_inMode (mode' : Mode) : (s.inMode mode).inMode mode' = s.inMode mode' := rfl

end

/-! ## Stopping -/

section
variable (s : State) (reason : Abort)

@[simp] theorem abort_children : (s.abort reason).children = s.children := by
  unfold abort; split <;> rfl

@[simp] theorem abort_reports : (s.abort reason).reports = s.reports := by
  unfold abort; split <;> rfl

@[simp] theorem abort_stalled : (s.abort reason).stalled = s.stalled := by
  unfold abort; split <;> rfl

@[simp] theorem abort_broken : (s.abort reason).broken = s.broken := by
  unfold abort; split <;> rfl

/-- A stop moves to the end of the text, unless the parse has been stopped before. -/
theorem abort_cases : s.abort reason = s ∨
    ((s.abort reason).aborted ≠ none ∧ (s.abort reason).place = s.place.finish) := by
  unfold abort
  split
  · exact .inl rfl
  · exact .inr ⟨by simp, rfl⟩

end

/-- The limit on nodes has stopped the parse. -/
def OutOfNodes (s : State) : Prop := ∃ limit, s.aborted = some (.nodeLimit limit)

theorem not_outOfNodes {s : State} (h : s.aborted = none) : ¬s.OutOfNodes := by
  rintro ⟨limit, hlimit⟩
  rw [h] at hlimit
  cases hlimit

theorem outOfNodes_congr {s t : State} (h : t.aborted = s.aborted) :
    t.OutOfNodes ↔ s.OutOfNodes := by
  rw [OutOfNodes, OutOfNodes, h]

/-- A parse that is stopped by another reason is none that is out of nodes. -/
theorem outOfNodes_abort_deadline (s : State) : (s.abort .deadline).OutOfNodes ↔ s.OutOfNodes := by
  cases h : s.aborted <;> simp [OutOfNodes, abort, h]

/-! ## Entering a node -/

section
variable (s : State) (limits : Limits) (children : List Shape)

@[simp] theorem enter_children : (s.enter limits children).children = children := rfl

@[simp] theorem enter_reports : (s.enter limits children).reports = s.reports := by
  simp only [enter, beginNode]
  split
  · split
    · exact abort_reports _ _
    · rfl
  · rfl

@[simp] theorem enter_stalled : (s.enter limits children).stalled = s.stalled := by
  simp only [enter, beginNode]
  split
  · split
    · exact abort_stalled _ _
    · rfl
  · rfl

@[simp] theorem enter_broken : (s.enter limits children).broken = s.broken := by
  simp only [enter, beginNode]
  split
  · split
    · exact abort_broken _ _
    · rfl
  · rfl

/-- A node is entered in place, unless that stops the parse. -/
theorem enter_cases :
    ((s.enter limits children).place = s.place ∧ (s.enter limits children).mode = s.mode ∧
      (s.enter limits children).aborted = s.aborted) ∨
    ((s.enter limits children).aborted ≠ none ∧
      (s.enter limits children).place = s.place.finish) := by
  simp only [enter, beginNode]
  split
  · rename_i limit _
    split
    · rcases abort_cases { s with begun := s.begun + 1 } (.nodeLimit limit) with h | h
      · rw [h]
        exact .inl ⟨rfl, rfl, rfl⟩
      · exact .inr h
    · exact .inl ⟨rfl, rfl, rfl⟩
  · exact .inl ⟨rfl, rfl, rfl⟩

end

/-- As long as there are nodes left, one is entered in place. -/
theorem enter_of_not_outOfNodes {s : State} {limits : Limits} {children : List Shape}
    (h : ¬(s.enter limits children).OutOfNodes) :
    (s.enter limits children).place = s.place ∧ (s.enter limits children).mode = s.mode ∧
      (s.enter limits children).aborted = s.aborted := by
  revert h
  simp only [enter, beginNode]
  split
  · rename_i limit _
    split
    · cases hs : s.aborted with
      | none => exact fun h => absurd ⟨limit, by simp [abort]⟩ h
      | some reason => simp [abort]
    · exact fun _ => ⟨rfl, rfl, rfl⟩
  · exact fun _ => ⟨rfl, rfl, rfl⟩

/-! ## Taking a token -/

section
variable (s : State) (limits : Limits) (kind : Kind) (field : Option Field)

variable [Alphabet]

@[simp] theorem takeAs_children :
    (s.takeAs limits kind field).children =
      .token kind field s.token.leading s.token.text s.token.trailing :: s.children := by
  simp only [takeAs]
  split
  · exact abort_children _ _
  · rfl

@[simp] theorem takeAs_stalled : (s.takeAs limits kind field).stalled = s.stalled := by
  simp only [takeAs]
  split
  · exact abort_stalled _ _
  · rfl

@[simp] theorem takeAs_broken : (s.takeAs limits kind field).broken = s.broken := by
  simp only [takeAs]
  split
  · exact abort_broken _ _
  · rfl

theorem takeAs_reports_eq :
    (s.takeAs limits kind field).reports = s.token.report?.toList ++ s.reports := by
  rw [Token.report?, token]
  cases hflaw : (s.place.next s.mode).1.flaw with
  | none =>
    simp only [takeAs, hflaw]
    split
    · exact abort_reports _ _
    · rfl
  | some flaw =>
    simp only [takeAs, hflaw]
    split
    · exact abort_reports _ _
    · rfl

theorem takeAs_reports : s.reports <:+ (s.takeAs limits kind field).reports :=
  ⟨_, (s.takeAs_reports_eq limits kind field).symm⟩

/-- Taking a token uses up no node. -/
@[simp] theorem takeAs_outOfNodes : (s.takeAs limits kind field).OutOfNodes ↔ s.OutOfNodes := by
  simp only [takeAs]
  split
  · exact outOfNodes_abort_deadline _
  · exact Iff.rfl

/-- Behind a token the text goes on, unless taking it stops the parse. -/
theorem takeAs_cases :
    ((s.takeAs limits kind field).place = (s.place.next s.mode).2 ∧
      (s.takeAs limits kind field).mode = .operator ∧
      (s.takeAs limits kind field).aborted = s.aborted) ∨
    ((s.takeAs limits kind field).aborted ≠ none ∧
      (s.takeAs limits kind field).place = (s.place.next s.mode).2.finish) := by
  simp only [takeAs]
  split
  · rcases abort_cases _ Abort.deadline with h | h
    · rw [h]
      exact .inl ⟨rfl, rfl, rfl⟩
    · exact .inr h
  · exact .inl ⟨rfl, rfl, rfl⟩

end

/-- Behind the end of the text there is nothing. -/
theorem token_ne_eof_of_takeAs [Alphabet] (s : State) {limits : Limits} {kind : Kind}
    {field : Option Field}
    (h : (s.takeAs limits kind field).place.rest ≠ []) : s.token.kind ≠ .eof := by
  intro he
  rcases s.takeAs_cases limits kind field with ⟨hp, -⟩ | ⟨-, hp⟩
  · rw [hp] at h
    exact h (Place.next_of_eof he).2.2
  · rw [hp] at h
    exact h rfl

/-! ## Closing and labelling -/

section
variable (s : State) (outer : List Shape) (kind : Kind) (field : Field)

@[simp] theorem close_children :
    (s.close outer kind).children = .node kind none s.children.reverse :: outer := rfl
@[simp] theorem close_place : (s.close outer kind).place = s.place := rfl
@[simp] theorem close_aborted : (s.close outer kind).aborted = s.aborted := rfl
@[simp] theorem close_reports : (s.close outer kind).reports = s.reports := rfl
@[simp] theorem close_stalled : (s.close outer kind).stalled = s.stalled := rfl
@[simp] theorem close_broken : (s.close outer kind).broken = s.broken := rfl

@[simp] theorem labelLast_place : (s.labelLast field).place = s.place := by
  unfold labelLast; split <;> rfl

@[simp] theorem labelLast_mode : (s.labelLast field).mode = s.mode := by
  unfold labelLast; split <;> rfl

@[simp] theorem labelLast_aborted : (s.labelLast field).aborted = s.aborted := by
  unfold labelLast; split <;> rfl

@[simp] theorem labelLast_reports : (s.labelLast field).reports = s.reports := by
  unfold labelLast; split <;> rfl

@[simp] theorem labelLast_stalled : (s.labelLast field).stalled = s.stalled := by
  unfold labelLast; split <;> rfl

@[simp] theorem labelLast_broken : (s.labelLast field).broken = s.broken := by
  unfold labelLast; split <;> rfl

@[simp] theorem labelLast_token [Alphabet] : (s.labelLast field).token = s.token := by
  simp [token]

theorem labelLast_children {c : Shape} {cs : List Shape} (h : s.children = c :: cs) :
    (s.labelLast field).children = c.withField field :: cs := by
  simp [labelLast, h]

end

/-! ## Reporting -/

section
variable (s : State) (error : SyntaxError)

variable [Alphabet]

@[simp] theorem report_place : (s.report error).place = s.place := by
  unfold report; split <;> rfl

@[simp] theorem report_mode : (s.report error).mode = s.mode := by
  unfold report; split <;> rfl

@[simp] theorem report_children : (s.report error).children = s.children := by
  unfold report; split <;> rfl

@[simp] theorem report_aborted : (s.report error).aborted = s.aborted := by
  unfold report; split <;> rfl

@[simp] theorem report_stalled : (s.report error).stalled = s.stalled := by
  unfold report; split <;> rfl

@[simp] theorem report_broken : (s.report error).broken = s.broken := by
  unfold report; split <;> rfl

@[simp] theorem report_token : (s.report error).token = s.token := by
  simp [token]

theorem report_reports : s.reports <:+ (s.report error).reports := by
  unfold report
  split
  · exact List.suffix_refl _
  · exact List.suffix_cons _ _

end

/-! ## Reports on tokens -/

/-- What has been reported on tokens, the first one first. -/
def tokenReports (s : State) : List Diagnostic :=
  s.reports.reverse.filter fun d => d.cause.category == .lexical

/-- Reports on tokens are all that is reported when one is taken. -/
theorem takeAs_tokenReports [Alphabet] (s : State) (limits : Limits) (kind : Kind)
    (field : Option Field) :
    (s.takeAs limits kind field).tokenReports = s.tokenReports ++ s.token.report?.toList := by
  have hflaw (t : Token) : (t.report?.toList.reverse.filter fun d => d.cause.category == .lexical) =
      t.report?.toList := by
    rw [Token.report?]
    cases t.flaw <;> rfl
  rw [tokenReports, takeAs_reports_eq, List.reverse_append, List.filter_append, hflaw, tokenReports]

@[simp] theorem report_tokenReports [Alphabet] (s : State) (error : SyntaxError) :
    (s.report error).tokenReports = s.tokenReports := by
  unfold report
  split
  · rfl
  · simp [tokenReports, Cause.category]

/-! ## What every change keeps -/

/-- A run can lead from `s` to `t`: the place has not moved back, a stop is for good, and no report
is taken back. -/
structure Leads (s t : State) : Prop where
  place : s.place.Reaches t.place
  aborted : t.aborted = none → s.aborted = none
  reports : s.reports <:+ t.reports

namespace Leads

variable {s t u : State}

theorem refl (s : State) : s.Leads s := ⟨.refl _, id, List.suffix_refl _⟩

theorem trans (h₁ : s.Leads t) (h₂ : t.Leads u) : s.Leads u :=
  ⟨h₁.place.trans h₂.place, fun h => h₁.aborted (h₂.aborted h), h₁.reports.trans h₂.reports⟩

/-- States that agree on what a run looks at. -/
theorem of_eq (hp : t.place = s.place) (ha : t.aborted = s.aborted) (hr : t.reports = s.reports) :
    s.Leads t :=
  ⟨hp ▸ .refl _, fun h => ha ▸ h, hr ▸ List.suffix_refl _⟩

theorem inMode (s : State) (mode : Mode) : s.Leads (s.inMode mode) := of_eq rfl rfl rfl

theorem enter (s : State) (limits : Limits) (children : List Shape) :
    s.Leads (s.enter limits children) := by
  have hr : s.reports <:+ (s.enter limits children).reports := by simp
  rcases s.enter_cases limits children with ⟨hp, -, ha⟩ | ⟨ha, hp⟩
  · exact ⟨hp ▸ .refl _, fun h => ha ▸ h, hr⟩
  · exact ⟨hp ▸ s.place.reaches_finish, fun h => absurd h ha, hr⟩

theorem takeAs [Alphabet] (s : State) (limits : Limits) (kind : Kind) (field : Option Field) :
    s.Leads (s.takeAs limits kind field) := by
  have hr := s.takeAs_reports limits kind field
  have hn := s.place.reaches_next s.mode
  rcases s.takeAs_cases limits kind field with ⟨hp, -, ha⟩ | ⟨ha, hp⟩
  · exact ⟨hp ▸ hn, fun h => ha ▸ h, hr⟩
  · exact ⟨hp ▸ hn.trans (Place.reaches_finish _), fun h => absurd h ha, hr⟩

theorem report [Alphabet] (s : State) (error : SyntaxError) : s.Leads (s.report error) :=
  ⟨by simpa using .refl _, by simp, s.report_reports error⟩

theorem labelLast (s : State) (field : Field) : s.Leads (s.labelLast field) :=
  of_eq (by simp) (by simp) (by simp)

theorem close {s t : State} (h : s.Leads t) (outer : List Shape) (kind : Kind) :
    s.Leads (t.close outer kind) := ⟨h.place, h.aborted, h.reports⟩

theorem noteStall {s t : State} (h : s.Leads t) : s.Leads (s.noteStall t) :=
  ⟨h.place, h.aborted, h.reports⟩

/-- A step that goes on leads on. -/
theorem repeatWhile {step : State → Bool × State} (hstep : ∀ s : State, s.Leads (step s).2)
    (limit : Nat) (s : State) : s.Leads (repeatWhile step limit s) := by
  induction limit generalizing s with
  | zero => exact of_eq rfl rfl rfl
  | succ limit ih =>
    have hs := hstep s
    unfold State.repeatWhile
    split
    · rename_i t ht
      rw [ht] at hs
      exact hs.noteStall.trans (ih _)
    · rename_i t ht
      rw [ht] at hs
      exact hs

end Leads

/-- The place has moved on. -/
def Moves (s t : State) : Prop := s.place.offset < t.place.offset

theorem Moves.trans_leads {s t u : State} (h₁ : s.Moves t) (h₂ : t.Leads u) : s.Moves u :=
  Nat.lt_of_lt_of_le h₁ h₂.place.offset_le

theorem Leads.trans_moves {s t u : State} (h₁ : s.Leads t) (h₂ : t.Moves u) : s.Moves u :=
  Nat.lt_of_le_of_lt h₁.place.offset_le h₂

@[simp] theorem moves_inMode {s t : State} {mode : Mode} : (s.inMode mode).Moves t ↔ s.Moves t :=
  Iff.rfl

/-- A token moves the place on. -/
theorem moves_takeAs [Alphabet] {s : State} (limits : Limits) (kind : Kind) (field : Option Field)
    (h : s.token.kind ≠ .eof) : s.Moves (s.takeAs limits kind field) := by
  have hlt := Place.offset_lt_next h
  rcases s.takeAs_cases limits kind field with ⟨hp, -⟩ | ⟨-, hp⟩
  · rw [Moves, hp]
    exact hlt
  · rw [Moves, hp]
    exact Nat.lt_of_lt_of_le hlt (Place.reaches_finish _).offset_le

/-- Entering a node moves to the end of the text or keeps the place. -/
theorem enter_moves {s : State} (limits : Limits) (children : List Shape)
    (h : s.place.rest ≠ []) :
    s.Moves (s.enter limits children) ∨
      ((s.enter limits children).place = s.place ∧ (s.enter limits children).mode = s.mode) := by
  rcases s.enter_cases limits children with ⟨hp, hm, -⟩ | ⟨-, hp⟩
  · exact .inr ⟨hp, hm⟩
  · left
    rw [Moves, hp]
    exact Place.offset_lt_finish h

/-! ## What is known of the next token -/

/-- The next token is as `P` says, unless the parse has been stopped. -/
def Sees [Alphabet] (s : State) (P : Token → Prop) : Prop := s.aborted = none → P s.token

theorem Sees.mono [Alphabet] {s : State} {P Q : Token → Prop} (h : s.Sees P)
    (hpq : ∀ t, P t → Q t) :
    s.Sees Q := fun ha => hpq _ (h ha)

@[simp] theorem sees_inMode [Alphabet] {s : State} {mode : Mode} {P : Token → Prop} :
    (s.inMode mode).Sees P ↔ (s.aborted = none → P (s.place.next mode).1) := Iff.rfl

@[simp] theorem sees_labelLast [Alphabet] {s : State} {field : Field} {P : Token → Prop} :
    (s.labelLast field).Sees P ↔ s.Sees P := by simp [Sees]

@[simp] theorem sees_close [Alphabet] {s : State} {outer : List Shape} {kind : Kind}
    {P : Token → Prop} :
    (s.close outer kind).Sees P ↔ s.Sees P := Iff.rfl

@[simp] theorem sees_report [Alphabet] {s : State} {error : SyntaxError} {P : Token → Prop} :
    (s.report error).Sees P ↔ s.Sees P := by simp [Sees]

/-- Inside a new node the next token is still the same. -/
theorem Sees.enter [Alphabet] {s : State} {P : Token → Prop} (h : s.Sees P) (limits : Limits)
    (children : List Shape) : (s.enter limits children).Sees P := by
  intro ha
  rcases s.enter_cases limits children with ⟨hp, hm, ha'⟩ | ⟨hna, -⟩
  · have := h (ha' ▸ ha)
    simpa [token, hp, hm] using this
  · exact absurd ha hna

/-- Nor does it change in any mode. -/
theorem Sees.enter_inMode [Alphabet] {s : State} {mode : Mode} {P : Token → Prop}
    (h : (s.inMode mode).Sees P) (limits : Limits) (children : List Shape) :
    ((s.enter limits children).inMode mode).Sees P := by
  intro ha
  rcases s.enter_cases limits children with ⟨hp, -, ha'⟩ | ⟨hna, -⟩
  · have := h (ha' ▸ ha)
    simpa [token, hp] using this
  · exact absurd ha hna

/-- The next token is as `P` says, unless the limit on nodes has stopped the parse.  A deadline is
asked about when a token is taken, so it comes before that token is looked at, or not at all. -/
def Finds [Alphabet] (s : State) (P : Token → Prop) : Prop := ¬s.OutOfNodes → P s.token

theorem Finds.sees [Alphabet] {s : State} {P : Token → Prop} (h : s.Finds P) : s.Sees P := fun ha =>
  h (not_outOfNodes ha)

theorem finds_inMode [Alphabet] {s : State} {mode : Mode} {P : Token → Prop}
    (h : P (s.place.next mode).1) :
    (s.inMode mode).Finds P := fun _ => h

/-- Inside a new node the next token is still the same, in every mode. -/
theorem Finds.enter_inMode [Alphabet] {s : State} {mode : Mode} {P : Token → Prop}
    (h : (s.inMode mode).Finds P) (limits : Limits) (children : List Shape) :
    ((s.enter limits children).inMode mode).Finds P := by
  intro hleft
  obtain ⟨hplace, -, haborted⟩ := enter_of_not_outOfNodes (s := s) hleft
  have hfound := h fun hs => hleft ((outOfNodes_congr haborted).2 hs)
  rw [inMode_token] at hfound ⊢
  rwa [hplace]

/-- The next token is not the end of the text, unless the parse has been stopped. -/
def HasToken [Alphabet] (s : State) : Prop := s.Sees (·.kind ≠ .eof)

theorem hasToken_of_kind [Alphabet] {s : State} {mode : Mode} {kind : Kind}
    (h : (s.place.next mode).1.kind = kind) (hk : kind ≠ .eof) : (s.inMode mode).HasToken := by
  intro _
  subst h
  exact hk

theorem HasToken.enter [Alphabet] {s : State} (h : s.HasToken) (limits : Limits)
    (children : List Shape) :
    (s.enter limits children).HasToken := Sees.enter h limits children

@[simp] theorem hasToken_report [Alphabet] {s : State} {error : SyntaxError} :
    (s.report error).HasToken ↔ s.HasToken := sees_report

/-- What comes behind the next token is as `P` says, unless the parse has been stopped. -/
def SeesBehind [Alphabet] (s : State) (P : Token → Prop) : Prop :=
  s.aborted = none → P ((s.place.next s.mode).2.next .operator).1

theorem SeesBehind.enter [Alphabet] {s : State} {P : Token → Prop} (h : s.SeesBehind P)
    (limits : Limits)
    (children : List Shape) : (s.enter limits children).SeesBehind P := by
  intro ha
  rcases s.enter_cases limits children with ⟨hp, hm, ha'⟩ | ⟨hna, -⟩
  · rw [hp, hm]
    exact h (ha' ▸ ha)
  · exact absurd ha hna

/-- Exactly the next token has been taken, unless the parse has been stopped. -/
def Takes [Alphabet] (s t : State) : Prop :=
  t.aborted = none →
    s.aborted = none ∧ t.place = (s.place.next s.mode).2 ∧ t.mode = .operator

theorem takes_takeAs [Alphabet] (s : State) (limits : Limits) (kind : Kind) (field : Option Field) :
    s.Takes (s.takeAs limits kind field) := by
  intro ha
  rcases s.takeAs_cases limits kind field with ⟨hp, hm, ha'⟩ | ⟨hna, -⟩
  · exact ⟨ha' ▸ ha, hp, hm⟩
  · exact absurd ha hna

/-- It makes no difference whether a node is entered first. -/
theorem Takes.of_enter [Alphabet] {s t : State} {limits : Limits} {children : List Shape}
    (h : (s.enter limits children).Takes t) : s.Takes t := by
  intro ha
  obtain ⟨ha', hplace, hmode⟩ := h ha
  rcases s.enter_cases limits children with ⟨hp, hm, ha''⟩ | ⟨hna, -⟩
  · exact ⟨ha'' ▸ ha', by rw [hplace, hp, hm], hmode⟩
  · exact absurd ha' hna

/-- Once the next token is taken, what came behind it comes next. -/
theorem Takes.sees [Alphabet] {s t : State} {P : Token → Prop} (h : s.Takes t)
    (hs : s.SeesBehind P) :
    t.Sees P := by
  intro ha
  obtain ⟨ha', hplace, hmode⟩ := h ha
  rw [token, hplace, hmode]
  exact hs ha'

/-! ## What has been made -/

/-- Exactly one node has been added to the children. -/
def Makes (s t : State) : Prop :=
  ∃ kind children, t.children = .node kind none children :: s.children

/-- The last child is a node. -/
def EndsInNode (s : State) : Prop :=
  ∃ kind field children outer, s.children = .node kind field children :: outer

theorem Makes.endsInNode {s t : State} (h : s.Makes t) : t.EndsInNode := by
  obtain ⟨kind, children, h⟩ := h
  exact ⟨kind, none, children, s.children, h⟩

theorem makes_close (s t : State) (kind : Kind) : s.Makes (t.close s.children kind) :=
  ⟨kind, t.children.reverse, rfl⟩

@[simp] theorem makes_inMode {s t : State} {mode : Mode} : s.Makes (t.inMode mode) ↔ s.Makes t :=
  Iff.rfl

@[simp] theorem inMode_makes {s t : State} {mode : Mode} : (s.inMode mode).Makes t ↔ s.Makes t :=
  Iff.rfl

@[simp] theorem endsInNode_inMode {s : State} {mode : Mode} :
    (s.inMode mode).EndsInNode ↔ s.EndsInNode := Iff.rfl

@[simp] theorem endsInNode_report [Alphabet] {s : State} {error : SyntaxError} :
    (s.report error).EndsInNode ↔ s.EndsInNode := by simp [EndsInNode]

@[simp] theorem endsInNode_close (s : State) (outer : List Shape) (kind : Kind) :
    (s.close outer kind).EndsInNode := ⟨kind, none, s.children.reverse, outer, rfl⟩

@[simp] theorem endsInNode_ite {c : Prop} [Decidable c] {s t : State} :
    (if c then s else t).EndsInNode ↔ (c → s.EndsInNode) ∧ (¬c → t.EndsInNode) := by
  split <;> simp [*]

end State

end ActionScript
