import ActionScript.Proofs.Outcome
import ActionScript.Proofs.Printing.Reading

/-!
# Runs without faults

While nothing is wrong with a text and no limit stops the parse, all that counts of a state is what
is left of the text, the mode, and what the open node holds.  These make up a *spot*, and a parser
goes from one spot to another.

* `Setting.Goes`: from a spot a parser goes to another one, with a value.  There is one rule for
  each instruction.
* `Setting.Rounds`, `Setting.goes_loop`: **a repetition goes where its rounds lead.**  That it stops
  in time is known from its safety.
-/

set_option autoImplicit false

namespace ActionScript

open ActionScript.Parser

/-- What counts of a state while nothing is wrong. -/
structure Spot where
  rest : Text
  mode : Mode
  made : List Shape

/-- The state is at a spot, nothing has been reported, and the parse has not been stopped. -/
structure State.At (s : State) (c : Spot) : Prop where
  rest : s.place.rest = c.rest
  mode : s.mode = c.mode
  children : s.children = c.made
  reports : s.reports = []
  aborted : s.aborted = none

/-- What a parser sees of the token at the head of a text. -/
def Text.glimpse [Alphabet] (mode : Mode) (cs : Text) : Glimpse :=
  State.glimpse ((Place.start cs).next mode).1

/-- The kind of the token at the head of a text, as it is read after an operand. -/
def Text.ahead [Alphabet] (cs : Text) : Kind := (Text.glimpse .operator cs).kind

section
variable {mode : Mode} {rest text more : Text} {kind : Kind} {lead tail : List Trivia}

variable [Alphabet]

theorem Mode.ReadsBehind.glimpse (h : mode.ReadsBehind lead rest kind text tail more) :
    Text.glimpse mode rest = ⟨kind, text, lead.any Trivia.breaksLine⟩ := by
  rw [Text.glimpse, (h (Place.start rest) rfl).1]
  rfl

theorem Mode.Reads.glimpse (h : mode.Reads rest kind text tail more) :
    Text.glimpse mode rest = ⟨kind, text, false⟩ :=
  ReadsBehind.glimpse h

theorem Mode.ReadsBehind.ahead (h : Mode.operator.ReadsBehind lead rest kind text tail more) :
    Text.ahead rest = kind := by
  rw [Text.ahead, h.glimpse]

end

namespace State.At

variable {s : State} {c : Spot} {limits : Limits}

/-- What is seen of a token does not depend on where it stands. -/
theorem glimpse [Alphabet] (h : s.At c) (mode : Mode) :
    State.glimpse (s.place.next mode).1 = Text.glimpse mode c.rest := by
  rw [← h.rest]
  rfl

theorem token_kind [Alphabet] (h : s.At c) {kind : Kind} {text more : Text}
    {lead tail : List Trivia}
    (hread : c.mode.ReadsBehind lead c.rest kind text tail more) : s.token.kind = kind := by
  rw [State.token, h.mode, (hread s.place h.rest).1]

theorem inMode (h : s.At c) (mode : Mode) : (s.inMode mode).At { c with mode } :=
  ⟨h.rest, rfl, h.children, h.reports, h.aborted⟩

theorem enter (hl : limits.Endless) (h : s.At c) (made : List Shape) :
    (s.enter limits made).At { c with made } := by
  have haborted := (enter_aborted hl s made).trans h.aborted
  have hreports := (s.enter_reports limits made).trans h.reports
  rcases s.enter_cases limits made with ⟨hplace, hmode, -⟩ | ⟨hne, -⟩
  · exact ⟨(congrArg Place.rest hplace).trans h.rest, hmode.trans h.mode, rfl, hreports, haborted⟩
  · exact absurd haborted hne

theorem takeAs [Alphabet] (hl : limits.Endless) (h : s.At c) {kind : Kind} {text more : Text}
    {lead tail : List Trivia} (hread : c.mode.ReadsBehind lead c.rest kind text tail more)
    (kind' : Kind) (field : Option Field) :
    (s.takeAs limits kind' field).At
      ⟨more, .operator, .token kind' field lead text tail :: c.made⟩ := by
  obtain ⟨htoken, hmore⟩ := hread s.place h.rest
  rw [← h.mode] at htoken hmore
  have haborted := (takeAs_aborted hl s kind' field).trans h.aborted
  have hreports : (s.takeAs limits kind' field).reports = [] := by
    simp only [State.takeAs, hl.2, Bool.and_false, Bool.false_eq_true, if_false, htoken]
    exact h.reports
  have hchildren := s.takeAs_children limits kind' field
  rw [State.token, htoken, h.children] at hchildren
  rcases s.takeAs_cases limits kind' field with ⟨hplace, hmode, -⟩ | ⟨hne, -⟩
  · exact ⟨(congrArg Place.rest hplace).trans hmore, hmode, hchildren, hreports, haborted⟩
  · exact absurd haborted hne

theorem close (h : s.At c) (outer : List Shape) (kind : Kind) :
    (s.close outer kind).At { c with made := .node kind none c.made.reverse :: outer } :=
  ⟨h.rest, h.mode, by rw [close_children, h.children], h.reports, h.aborted⟩

theorem labelLast {rest : Text} {mode : Mode} {x : Shape} {made : List Shape}
    (h : s.At ⟨rest, mode, x :: made⟩) (field : Field) :
    (s.labelLast field).At ⟨rest, mode, x.withField field :: made⟩ := by
  have hchildren := s.labelLast_children field h.children
  exact ⟨(congrArg Place.rest (s.labelLast_place field)).trans h.rest,
    (s.labelLast_mode field).trans h.mode, hchildren, (s.labelLast_reports field).trans h.reports,
    (s.labelLast_aborted field).trans h.aborted⟩

end State.At

namespace Setting

variable [Alphabet] (E : Setting) {α β : Type}

/-- From every state at a spot a parser goes to another spot, with a value, if it runs safely. -/
def Goes (p : Parser α) (c : Spot) (a : α) (d : Spot) : Prop :=
  ∀ s : State, s.At c → E.Safe p s → E.val p s = a ∧ (E.after p s).At d

/-- The rounds of a repetition lead from a spot to another one. -/
inductive Rounds (body : Parser Bool) : Spot → Spot → Prop where
  | last {c d : Spot} : E.Goes body c false d → Rounds body c d
  | more {c d e : Spot} : E.Goes body c true d → Rounds body d e → Rounds body c e

variable {E}

/-! ## Instructions -/

theorem goes_pure (a : α) (c : Spot) : E.Goes (pure a) c a c := fun _ hs _ => ⟨rfl, hs⟩

theorem Goes.bind {p : Parser β} {f : β → Parser α} {b : β} {a : α} {c d e : Spot}
    (hp : E.Goes p c b d) (hf : E.Goes (f b) d a e) : E.Goes (p >>= f) c a e := by
  intro s hs hsafe
  obtain ⟨hval, hafter⟩ := hp s hs hsafe.1
  rw [val_bind, after_bind, hval]
  exact hf _ hafter (hval ▸ hsafe.2)

theorem Goes.of_pos {q : Prop} [Decidable q] {p p' : Parser α} {a : α} {c d : Spot} (hq : q)
    (h : E.Goes p c a d) : E.Goes (if q then p else p') c a d := by
  rw [if_pos hq]
  exact h

theorem Goes.of_neg {q : Prop} [Decidable q] {p p' : Parser α} {a : α} {c d : Spot} (hq : ¬q)
    (h : E.Goes p' c a d) : E.Goes (if q then p else p') c a d := by
  rw [if_neg hq]
  exact h

section
variable (mode mode' : Mode) (rest : Text) (made : List Shape)

theorem goes_look :
    E.Goes (.look mode) ⟨rest, mode', made⟩ (rest.glimpse mode) ⟨rest, mode, made⟩ :=
  fun _ hs _ => ⟨hs.glimpse mode, hs.inMode mode⟩

theorem goes_look_behind {kind : Kind} {text more : Text} {lead tail : List Trivia}
    (h : mode.ReadsBehind lead rest kind text tail more) :
    E.Goes (.look mode) ⟨rest, mode', made⟩ ⟨kind, text, lead.any Trivia.breaksLine⟩
      ⟨rest, mode, made⟩ := by
  rw [← h.glimpse]
  exact goes_look mode mode' rest made

theorem goes_look_reads {kind : Kind} {text more : Text} {tail : List Trivia}
    (h : mode.Reads rest kind text tail more) :
    E.Goes (.look mode) ⟨rest, mode', made⟩ ⟨kind, text, false⟩ ⟨rest, mode, made⟩ :=
  goes_look_behind mode mode' rest made h

theorem goes_require (kind : Kind) :
    E.Goes (.require mode kind) ⟨rest, mode', made⟩ () ⟨rest, mode', made⟩ :=
  fun _ hs _ => ⟨rfl, ⟨hs.rest, hs.mode, hs.children, hs.reports, hs.aborted⟩⟩

end

theorem goes_label (field : Field) (rest : Text) (mode : Mode) (x : Shape) (made : List Shape) :
    E.Goes (.label field) ⟨rest, mode, x :: made⟩ () ⟨rest, mode, x.withField field :: made⟩ :=
  fun _ hs _ => ⟨rfl, hs.labelLast field⟩

/-- A rule goes where its parser goes one level deeper. -/
theorem goes_call {limits : Limits} {depth : Nat} (rule : Rule) {c d : Spot}
    (h : (atDepth limits depth).Goes (Grammar.rule rule) c () d) :
    (atDepth limits (depth + 1)).Goes (.call rule) c () d := by
  intro s hs hready
  exact ⟨rfl, (h s hs (safe_rule hready)).2⟩

section
variable {kind : Kind} {rest text more : Text} {lead tail : List Trivia} {mode mode' : Mode}
  {made kids : List Shape} (hl : E.limits.Endless)
include hl

theorem goes_take (h : mode.ReadsBehind lead rest kind text tail more) (field : Option Field) :
    E.Goes (.take field) ⟨rest, mode, made⟩ ()
      ⟨more, .operator, .token kind field lead text tail :: made⟩ := by
  intro s hs _
  rw [after_take, hs.token_kind h]
  exact ⟨rfl, hs.takeAs hl h kind field⟩

theorem goes_takeWord (h : mode.ReadsBehind lead rest .name text tail more) (keyword : Kind)
    (field : Option Field) :
    E.Goes (.takeWord keyword field) ⟨rest, mode, made⟩ ()
      ⟨more, .operator, .token keyword field lead text tail :: made⟩ :=
  fun _ hs _ => ⟨rfl, hs.takeAs hl h keyword field⟩

theorem goes_node {body : Parser (Kind × α)} {a : α}
    (h : E.Goes body ⟨rest, mode, []⟩ (kind, a) ⟨more, mode', kids.reverse⟩) :
    E.Goes (.node body) ⟨rest, mode, made⟩ a ⟨more, mode', .node kind none kids :: made⟩ := by
  intro s hs hsafe
  obtain ⟨hval, hafter⟩ := h _ (hs.enter hl []) hsafe
  have hclosed := hafter.close made kind
  rw [List.reverse_reverse] at hclosed
  rw [val_node, after_node, hval, hs.children]
  exact ⟨rfl, hclosed⟩

theorem goes_nodeOf {body : Parser Unit}
    (h : E.Goes body ⟨rest, mode, []⟩ () ⟨more, mode', kids.reverse⟩) :
    E.Goes (nodeOf kind body) ⟨rest, mode, made⟩ () ⟨more, mode', .node kind none kids :: made⟩ :=
  goes_node hl (h.bind (goes_pure _ _))

theorem goes_wrap {field : Field} {body : Parser Kind} {x : Shape}
    (h : E.Goes body ⟨rest, mode, [x.withField field]⟩ kind ⟨more, mode', kids.reverse⟩) :
    E.Goes (.wrap field body) ⟨rest, mode, x :: made⟩ ()
      ⟨more, mode', .node kind none kids :: made⟩ := by
  intro s hs hsafe
  have hinside : (s.children.take 1).map (Shape.withField field) = [x.withField field] := by
    simp [hs.children]
  have houter : s.children.drop 1 = made := by simp [hs.children]
  obtain ⟨hval, hafter⟩ := h _ (hs.enter hl _) (hinside ▸ hsafe.2.2)
  have hclosed := hafter.close made kind
  rw [List.reverse_reverse] at hclosed
  refine ⟨rfl, ?_⟩
  rw [after_wrap, hinside, houter, hval]
  exact hclosed

end

/-! ## Repetitions -/

/-- Rounds are gone through by a repetition that proceeds. -/
theorem Rounds.at_repeatWhile {body : Parser Bool} {c d : Spot} (h : E.Rounds body c d)
    {limit : Nat} {s : State} (hs : s.At c)
    (hproceeds : Proceeds (E.Safe body) (fun t => (E.val body t, E.after body t)) limit s) :
    (State.repeatWhile (fun t => (E.val body t, E.after body t)) limit s).At d := by
  induction h generalizing limit s with
  | last hbody =>
    cases limit with
    | zero => exact hproceeds.elim
    | succ limit =>
      obtain ⟨hval, hafter⟩ := hbody s hs hproceeds.1
      simp only [State.repeatWhile, hval]
      exact hafter
  | more hbody _ ih =>
    cases limit with
    | zero => exact hproceeds.elim
    | succ limit =>
      obtain ⟨hval, hafter⟩ := hbody s hs hproceeds.1
      obtain ⟨hmoves, hrest⟩ := hproceeds.2 hval
      simp only [State.repeatWhile, hval, noteStall_of_moves hmoves]
      exact ih hafter hrest

/-- **A repetition goes where its rounds lead.** -/
theorem goes_loop {body : Parser Bool} {c d : Spot} (h : E.Rounds body c d) :
    E.Goes (.loop body) c () d :=
  fun _ hs hsafe => ⟨rfl, h.at_repeatWhile hs hsafe⟩

/-! ## Derived instructions -/

section
variable {kind : Kind} {rest text more : Text} {lead tail : List Trivia} {mode : Mode}
  {made : List Shape}

theorem goes_peek (rest : Text) (mode : Mode) (made : List Shape) :
    E.Goes peek ⟨rest, mode, made⟩ rest.ahead ⟨rest, .operator, made⟩ :=
  (goes_look _ _ _ _).bind (goes_pure _ _)

theorem goes_sees (kind : Kind) (rest : Text) (mode : Mode) (made : List Shape) :
    E.Goes (sees kind) ⟨rest, mode, made⟩ (rest.ahead == kind) ⟨rest, .operator, made⟩ :=
  (goes_peek _ _ _).bind (goes_pure _ _)

theorem goes_eat_none (h : rest.ahead ≠ kind) :
    E.Goes (eat kind) ⟨rest, mode, made⟩ false ⟨rest, .operator, made⟩ :=
  (goes_sees _ _ _ _).bind <| .of_neg (by simpa using h) (goes_pure _ _)

theorem goes_callIn {rule : Rule} {field : Field} {c : Spot} {x : Shape}
    (h : E.Goes (.call rule) c () ⟨rest, mode, x :: made⟩) :
    E.Goes (callIn field rule) c () ⟨rest, mode, x.withField field :: made⟩ :=
  h.bind (goes_label field rest mode x made)

variable (hl : E.limits.Endless)
include hl

theorem goes_eat (h : Mode.operator.ReadsBehind lead rest kind text tail more) :
    E.Goes (eat kind) ⟨rest, mode, made⟩ true
      ⟨more, .operator, .token kind none lead text tail :: made⟩ :=
  (goes_sees _ _ _ _).bind <| .of_pos (by simp [h.ahead]) <|
    (goes_take hl h none).bind (goes_pure _ _)

theorem goes_expectIn (h : mode.ReadsBehind lead rest kind text tail more) {mode' : Mode} :
    E.Goes (expectIn mode kind) ⟨rest, mode', made⟩ true
      ⟨more, .operator, .token kind none lead text tail :: made⟩ := by
  have hsees : E.Goes (seesIn mode kind) ⟨rest, mode', made⟩ true ⟨rest, mode, made⟩ := by
    rw [← beq_self_eq_true kind]
    exact (goes_look_behind _ _ _ _ h).bind (goes_pure _ _)
  exact hsees.bind (.of_pos rfl ((goes_take hl h none).bind (goes_pure _ _)))

theorem goes_expect (h : Mode.operator.ReadsBehind lead rest kind text tail more) :
    E.Goes (expect kind) ⟨rest, mode, made⟩ ()
      ⟨more, .operator, .token kind none lead text tail :: made⟩ :=
  (goes_expectIn hl h).bind (goes_pure _ _)

theorem goes_leaf (h : mode.ReadsBehind lead rest kind text tail more) (kind' : Kind) :
    E.Goes (leaf kind') ⟨rest, mode, made⟩ ()
      ⟨more, .operator, .node kind' none [.token kind none lead text tail] :: made⟩ :=
  goes_nodeOf hl (goes_take hl h none)

end

end Setting

end ActionScript
