import ActionScript.Proofs.Outcome

/-!
# Requirements

Some parsers rely on the next token: a list on its opening bracket, type arguments on what opens
them.  Their callers have looked at that token before.  In between nothing is taken, so a deadline
cannot stop the parse there.  But a node may be begun, and the limit on nodes may stop it.  From
then on the text is at its end, and what was relied on is gone.

* `parseWithin_unbroken`: a parse gives a tree, or it was stopped; all requirements are kept, but
  where the limit on nodes has stopped it.
* `run_broken`: a parse that is stopped by that limit may have broken one.
-/

set_option autoImplicit false

namespace ActionScript

/-- **A parse gives a tree, and all requirements were met on the way, or it was stopped**, and then
that is what it gives.  If it was a deadline that stopped it, all requirements were met on the way,
too. -/
theorem parseWithin_unbroken [Alphabet] (limits : Limits) (text : Text) :
    (∃ p, parseWithin limits text = .ok p ∧ (State.run limits text).broken = false) ∨
    ∃ reason, parseWithin limits text = .error (.aborted reason) ∧
      (State.run limits text).aborted = some reason ∧
      (reason = .deadline → (State.run limits text).broken = false) := by
  cases ha : (State.run limits text).aborted with
  | none =>
    obtain ⟨modes, kids, last, hout⟩ := State.run_outcome ha
    exact .inl ⟨_, hout.parseWithin_eq ha, hout.unbroken⟩
  | some reason =>
    refine .inr ⟨reason, ?_, rfl, ?_⟩
    · simp only [parseWithin, ha]
    · rintro rfl
      refine State.broken_run ?_
      rintro ⟨limit, hlimit⟩
      rw [ha] at hlimit
      cases hlimit

/-- Here the arguments of a call have lost their bracket: it was seen, and then the node of the call
was one too many. -/
theorem run_broken : (State.run { maxNodes := some 3 } "f(a)".toList).broken = true ∧
    (State.run { maxNodes := some 3 } "f(a)".toList).aborted = some (.nodeLimit 3) ∧
    (State.run {} "f(a)".toList).broken = false := by
  decide +kernel

end ActionScript
