import ActionScript.Proofs.Depth

/-!
# Parsing comes to an end

Rules nest no deeper than the limit says, and a repetition is given one more step than the text at
hand has characters.  So a parse always ends; what has to be shown is that it ends by itself: each
step of a repetition moves on or is the last one, and none is cut off.  This is noted during the
run, and a note once made stays.

* `Setting.proceeds_of_not_stalled`: where nothing is noted, repetitions go on only if they move on,
  and stop in time.
* `run_not_stalled`: nothing is ever noted, whatever the text and the limits.
-/

set_option autoImplicit false

namespace ActionScript

/-- The note of a stall stays, whatever else is repeated. -/
theorem State.stalled_repeatWhile {step : State → Bool × State}
    (hstep : ∀ s : State, s.stalled = true → (step s).2.stalled = true) (limit : Nat) (s : State)
    (h : s.stalled = true) : (repeatWhile step limit s).stalled = true := by
  induction limit generalizing s with
  | zero => rfl
  | succ limit ih =>
    have hs := hstep s h
    rw [repeatWhile]
    split
    · rename_i t ht
      rw [ht] at hs
      have hnoted : t.stalled = true := hs
      exact ih _ (by simp [noteStall, hnoted])
    · rename_i t ht
      rw [ht] at hs
      exact hs

namespace Setting

variable [Alphabet] {E : Setting} {α : Type}

/-- The note of a stall stays during the run of a parser, if it does during that of a rule. -/
theorem stalled_after
    (hrules : ∀ (rule : Rule) (s : State), s.stalled = true → (E.apply rule s).stalled = true)
    (p : Parser α) (s : State) (h : s.stalled = true) : (E.after p s).stalled = true := by
  induction p generalizing s with
  | done value => exact h
  | andThen first next ihFirst ihNext => exact ihNext _ _ (ihFirst s h)
  | look mode => exact h
  | ahead distance => exact h
  | take field => exact (s.takeAs_stalled _ _ _).trans h
  | takeWord keyword field => exact (s.takeAs_stalled _ _ _).trans h
  | report error => exact (s.report_stalled error).trans h
  | node body ih => exact ih _ ((s.enter_stalled _ _).trans h)
  | wrap field body ih => exact ih _ ((s.enter_stalled _ _).trans h)
  | label field => exact (s.labelLast_stalled field).trans h
  | loop body ih => exact State.stalled_repeatWhile ih _ s h
  | call rule => exact hrules rule s h
  | require mode kind => exact h

theorem stalled_atDepth (limits : Limits) (depth : Nat) (rule : Rule) (s : State)
    (h : s.stalled = true) : ((atDepth limits depth).apply rule s).stalled = true := by
  induction depth generalizing rule s with
  | zero =>
    change (State.apply limits 0 rule s).stalled = true
    rw [apply_zero]
    exact stalled_after (E := givingUp limits) (fun _ _ h => h) _ s h
  | succ depth ih =>
    rw [atDepth_succ]
    exact stalled_after ih _ s h

omit [Alphabet] in
/-- **What the note says.**  Where nothing is noted behind a repetition, each of its steps that went
on has moved on, and it has stopped before its limit. -/
theorem proceeds_of_not_stalled {step : State → Bool × State}
    (hstep : ∀ s : State, s.stalled = true → (step s).2.stalled = true) (limit : Nat) (s : State)
    (h : (State.repeatWhile step limit s).stalled = false) :
    Proceeds (fun _ => True) step limit s := by
  induction limit generalizing s with
  | zero => cases h
  | succ limit ih =>
    refine ⟨trivial, fun hon => ?_⟩
    rw [State.repeatWhile] at h
    split at h
    · rename_i t ht
      rw [ht]
      have hmoves : s.Moves t := by
        -- otherwise the step is noted, and the note stays
        refine Nat.lt_of_not_le fun hstill => ?_
        have hnoted : (s.noteStall t).stalled = true := by simp [State.noteStall, hstill]
        rw [State.stalled_repeatWhile hstep limit _ hnoted] at h
        cases h
      rw [noteStall_of_moves hmoves] at h
      exact ⟨hmoves, ih t h⟩
    · rename_i t ht
      rw [ht] at hon
      cases hon

/-- The repetitions of a parse, at whatever depth, that are not noted as stalled. -/
theorem proceeds_atDepth (limits : Limits) (depth : Nat) (body : Parser Bool) (s : State)
    (h : ((atDepth limits depth).after (.loop body) s).stalled = false) :
    Proceeds (fun _ => True)
      (fun t => ((atDepth limits depth).val body t, (atDepth limits depth).after body t))
      (s.place.rest.length + 1) s :=
  proceeds_of_not_stalled (stalled_after (stalled_atDepth limits depth) body) _ s h

end Setting

/-- **Parsing comes to an end by itself**, whatever the text, the limits and the deadline: during no
parse does a repetition go on where it was or reach its limit, also not once the parse has been
stopped. -/
theorem run_not_stalled [Alphabet] (limits : Limits) (text : Text) :
    (State.run limits text).stalled = false := by
  obtain ⟨t, hconsumes, -, -, hrun⟩ := State.run_eq limits text
  calc (State.run limits text).stalled
      = t.stalled := by rw [hrun, State.close_stalled, State.takeAs_stalled]
    _ = ((State.start text).enter limits []).stalled := hconsumes.stalled
    _ = false := by rw [State.enter_stalled, State.start]

end ActionScript
