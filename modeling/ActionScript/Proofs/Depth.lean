import ActionScript.Parse
import ActionScript.Proofs.Consumption
import ActionScript.Proofs.Safety.Statements

/-!
# The rules at every depth

With no level of nesting left, every rule rejects the next token; with one more, it runs on the
rules below.  By induction on the levels the rules make up a setting, so that all that is known of
parsers in a setting holds of every parse.

* `Setting.atDepth`: the setting with so many levels left.
* `Setting.consumes_atDepth`: its rules consume what they read.
* `Setting.runs_statements`, `State.run_eq`: a whole parse takes statements up to the end of the
  text, and then takes that.
-/

set_option autoImplicit false

namespace ActionScript

open ActionScript.Parser ActionScript.Grammar

/-- A rule is sure to move on only where the text is not at its end. -/
theorem Rule.Starts.ahead_ne_eof [Alphabet] {rule : Rule} {s : State} (h : rule.Starts s) :
    s.place.ahead ≠ .eof := by
  intro he
  cases rule with
  | statement => exact h.1 he
  | expression min r =>
    simp only [Starts, he] at h
    exact absurd h (by simp [operandStops, closers])
  | unary =>
    simp only [Starts, he] at h
    exact absurd h (by decide)
  | construction => exact h.2 he
  | type => exact h
  | element => exact h.2 he

namespace Setting

variable [Alphabet]

/-- A setting whose rules give up the parse. -/
def givingUp (limits : Limits) : Setting where
  limits
  apply _ s :=
    { s with place := s.place.finish, aborted := some (.nodeLimit 0)
             children := .node .error none [] :: s.children }
  leads _ s := ⟨s.place.reaches_finish, fun h => (by cases h), List.suffix_refl _⟩
  makes _ _ := ⟨.error, [], rfl⟩
  moves _ s _ h := Place.offset_lt_finish (Place.rest_ne_nil_of_ahead h.ahead_ne_eof)

/-- With no level left, every rule rejects the next token. -/
theorem apply_zero (limits : Limits) (rule : Rule) (s : State) :
    State.apply limits 0 rule s = (givingUp limits).after (reject .nestingTooDeep) s := by
  unfold State.apply after reject
  change (Parser.exec _ _ (if _ then _ else _) _).2 = (Parser.exec _ _ (if _ then _ else _) _).2
  split <;> rfl

/-- At every depth the rules behave. -/
theorem exists_atDepth (limits : Limits) (depth : Nat) :
    ∃ E : Setting, E.limits = limits ∧ E.apply = State.apply limits depth := by
  induction depth with
  | zero =>
    refine ⟨⟨limits, State.apply limits 0, fun rule s => ?_, fun rule s => ?_,
      fun rule s _ h => ?_⟩, rfl, rfl⟩
    · rw [apply_zero]
      exact leads_after _ _ s
    · rw [apply_zero]
      exact makes_reject _
    · rw [apply_zero]
      exact moves_reject h.ahead_ne_eof
  | succ depth ih =>
    obtain ⟨E, rfl, hE⟩ := ih
    have happly (rule : Rule) (s : State) :
        State.apply E.limits (depth + 1) rule s = E.after (Grammar.rule rule) s := by
      rw [State.apply, ← hE]
      rfl
    refine ⟨⟨E.limits, State.apply E.limits (depth + 1), fun rule s => ?_, fun rule s => ?_,
      fun rule s _ h => ?_⟩, rfl, rfl⟩
    · rw [happly]
      exact E.leads_after _ s
    · rw [happly]
      exact makes_rule rule
    · rw [happly]
      exact moves_rule h

/-- **The setting with so many levels of nesting left.** -/
def atDepth (limits : Limits) (depth : Nat) : Setting where
  limits
  apply := State.apply limits depth
  leads := by
    obtain ⟨E, -, h⟩ := exists_atDepth limits depth
    exact h ▸ E.leads
  makes := by
    obtain ⟨E, -, h⟩ := exists_atDepth limits depth
    exact h ▸ E.makes
  moves := by
    obtain ⟨E, -, h⟩ := exists_atDepth limits depth
    exact h ▸ E.moves

theorem atDepth_succ (limits : Limits) (depth : Nat) (rule : Rule) (s : State) :
    (atDepth limits (depth + 1)).apply rule s =
      (atDepth limits depth).after (Grammar.rule rule) s := rfl

/-- **The rules consume what they read**, at every depth. -/
theorem consumes_atDepth (limits : Limits) (depth : Nat) (rule : Rule) (s : State)
    (h : rule.Ready s) : s.Consumes ((atDepth limits depth).apply rule s) := by
  induction depth generalizing rule s with
  | zero =>
    have hgiven (rule : Rule) (s : State) : s.Consumes ((givingUp limits).apply rule s) :=
      ⟨rfl, fun h => (by cases h), fun _ => ⟨0, rfl⟩, fun h => absurd ⟨0, rfl⟩ h,
        fun h => (by cases h)⟩
    change s.Consumes (State.apply limits 0 rule s)
    rw [apply_zero]
    exact consumes_after (fun rule s _ => hgiven rule s) (safe_reject _)
  | succ depth ih =>
    rw [atDepth_succ]
    exact consumes_after ih (safe_rule h)

end Setting

/-! ## A whole source file -/

/-- One round of the repetition of statements. -/
def statementRound : Parser Bool := do
  let k ← peek
  if k == .eof then return false
  else if k == .rCurly then
    reject .unmatchedBrace
    return true
  else
    Parser.call .statement
    return true

theorem sourceFile_eq :
    sourceFile = nodeOf .sourceFile (loop statementRound >>= fun _ => Parser.take none) :=
  rfl

namespace Setting

variable [Alphabet] {E : Setting} {s : State}

/-- The statements of a source file are safe, and behind them the text is at its end. -/
theorem runs_statements :
    E.Runs (loop statementRound) s fun _ t => t.mode = .operator ∧ t.place.ahead = .eof := by
  refine Runs.loop (fun _ => True) trivial fun t _ => ?_
  rw [statementRound, runs_bind, runs_peek, runs_ite]
  refine ⟨fun heof => ?_, fun hne => ?_⟩
  · rw [runs_pure]
    exact ⟨fun h => (by cases h), fun _ => ⟨rfl, by simpa using heof⟩⟩
  · have hne : t.place.ahead ≠ .eof := by simpa using hne
    rw [runs_ite]
    refine ⟨fun _ => ?_, fun hcurly => ?_⟩
    · refine ⟨⟨safe_reject _, trivial⟩, fun _ => ⟨?_, trivial⟩, fun h => (by cases h)⟩
      exact moves_bind_left (moves_reject (s := t.inMode .operator) hne)
    · have hstarts : Rule.statement.Starts (t.inMode .operator) := ⟨hne, by simpa using hcurly⟩
      refine ⟨⟨trivial, trivial⟩, fun _ => ⟨?_, trivial⟩, fun h => (by cases h)⟩
      exact State.moves_inMode.1 (moves_bind_left (E.moves .statement _ trivial hstarts))

end Setting

/-- **A whole parse** takes statements up to the end of the text, and then takes that. -/
theorem State.run_eq [Alphabet] (limits : Limits) (text : Text) :
    ∃ t : State, ((State.start text).enter limits []).Consumes t ∧ t.mode = .operator ∧
      t.place.ahead = .eof ∧
      State.run limits text = (t.takeAs limits .eof none).close [] .sourceFile := by
  let E := Setting.atDepth limits limits.maxDepth
  obtain ⟨hsafe, hmode, heof⟩ :=
    Setting.runs_statements (E := E) (s := (State.start text).enter E.limits [])
  have hconsumes := Setting.consumes_after (Setting.consumes_atDepth limits _) hsafe
  refine ⟨_, hconsumes, hmode, heof, ?_⟩
  have hkind := heof
  rw [← Place.next_operator_kind, ← hmode] at hkind
  change E.after sourceFile (State.start text) = _
  rw [sourceFile_eq, Setting.after_nodeOf, Setting.after_bind, Setting.after_take]
  rw [State.token, hkind]
  rfl

end ActionScript
