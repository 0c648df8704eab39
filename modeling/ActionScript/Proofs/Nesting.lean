import ActionScript.Proofs.Outcome
import ActionScript.Proofs.Plain

/-!
# The limit on nesting

A rule that nests too deeply rejects the next token and reports that.  Where nothing of the sort is
reported no rule was cut off, so more levels change nothing.

The rules count down the levels that are left.  Counting up the levels that are entered, and
comparing with the limit before each, comes to the same.

* `Setting.exec_of_clean`: a parser that is nowhere cut off does the same on rules with more levels.
* `State.run_of_clean`: so does a whole parse.
* `Counted`, `Parser.execCounted`: parsers that keep a count of the levels they are on.
* `Counted.level_execCounted`: every parser leaves the count as it found it.
* `Counted.counts_run`: the count never goes beyond the limit, and the parse is the one without it.
* `parseWithin_deeper`: **the limit on nesting shows only where it is hit.**
-/

set_option autoImplicit false

namespace ActionScript

open ActionScript.Parser ActionScript.Grammar

/-- The same limits, with another one on nesting. -/
def Limits.deepened (limits : Limits) (depth : Nat) : Limits := { limits with maxDepth := depth }

/-! ## Two runs -/

/-- Where a repetition is nowhere cut off, neither is its step; so it repeats any step that does the
same there. -/
theorem State.repeatWhile_of_clean {step more : State → Bool × State}
    (hleads : ∀ s : State, s.Leads (step s).2)
    (hmore : ∀ s, (step s).2.Clean → more s = step s) (limit : Nat) {s : State}
    (hs : (repeatWhile step limit s).Clean) :
    repeatWhile more limit s = repeatWhile step limit s := by
  induction limit generalizing s with
  | zero => rfl
  | succ limit ih =>
    have hstep := hmore s
    rw [repeatWhile] at hs
    rw [repeatWhile, repeatWhile]
    cases hdone : step s with
    | mk goes t =>
      rw [hdone] at hs hstep
      cases goes with
      | true =>
        have hnote : (s.noteStall t).Clean := (Leads.repeatWhile hleads limit _).clean hs
        rw [hstep hnote]
        exact ih hs
      | false =>
        rw [hstep hs]

namespace Setting

variable [Alphabet] {E : Setting}

/-- Rules that do what those of the setting do, wherever these are not cut off. -/
def Extends (E : Setting) (more : Rule → State → State) : Prop :=
  ∀ rule s, (E.apply rule s).Clean → more rule s = E.apply rule s

/-- **A parser that is nowhere cut off does the same on rules with more levels.** -/
theorem exec_of_clean {more : Rule → State → State} (hmore : E.Extends more) (depth : Nat)
    {α : Type} (p : Parser α) {s : State} (hs : (E.after p s).Clean) :
    p.exec (E.limits.deepened depth) more s = p.exec E.limits E.apply s := by
  induction p generalizing s with
  | andThen first next ihFirst ihNext =>
    have hfirst : (E.after first s).Clean := (E.leads_after (next (E.val first s)) _).clean hs
    rw [Parser.exec, Parser.exec, ihFirst hfirst]
    exact ihNext _ hs
  | node body ih =>
    have heq := ih (s := s.enter E.limits []) hs
    exact congrArg (fun a : _ × State => (a.1.2, a.2.close s.children a.1.1)) heq
  | wrap field body ih =>
    have heq := ih (s := s.enter E.limits ((s.children.take 1).map (Shape.withField field))) hs
    exact congrArg (fun a : _ × State => ((), a.2.close (s.children.drop 1) a.1)) heq
  | loop body ih =>
    have heq := State.repeatWhile_of_clean (E.leads_after body) (fun _ ht => ih ht)
      (s.place.rest.length + 1) hs
    exact congrArg (Prod.mk ()) heq
  | call rule => exact congrArg (Prod.mk ()) (hmore rule s hs)
  | _ => rfl

/-- What is rejected for nesting too deeply was cut off. -/
theorem not_clean_rejected (E : Setting) (s : State) :
    ¬(E.after (reject .nestingTooDeep) s).Clean := by
  intro hclean
  have hreport (t : State) : ¬(t.report .nestingTooDeep).Clean := by
    rintro ⟨hnone, hreports⟩
    rw [State.report_aborted] at hnone
    rw [State.report, hnone] at hreports
    exact hreports _ List.mem_cons_self rfl
  rw [reject, after_bind, after_ite] at hclean
  split at hclean
  · exact hreport _ ((E.leads_after (nodeOf .error (pure ())) _).clean hclean)
  · exact hreport _ ((E.leads_after (leaf .error) _).clean hclean)

/-- **The rules at a depth extend those at every lower depth.** -/
theorem extends_atDepth (limits : Limits) {depth more : Nat} (hle : depth ≤ more) (maxDepth : Nat) :
    (atDepth limits depth).Extends (State.apply (limits.deepened maxDepth) more) := by
  induction depth generalizing more with
  | zero =>
    intro rule s hclean
    have hrejected : ((givingUp limits).after (reject .nestingTooDeep) s).Clean := by
      rw [← apply_zero limits rule]
      exact hclean
    exact absurd hrejected (not_clean_rejected _ s)
  | succ depth ih =>
    obtain ⟨more, rfl⟩ : ∃ n, more = n + 1 := ⟨more - 1, by omega⟩
    intro rule s hclean
    have hbelow : (atDepth limits depth).Extends (State.apply (limits.deepened maxDepth) more) :=
      ih (by omega)
    exact congrArg Prod.snd (exec_of_clean hbelow maxDepth (Grammar.rule rule) hclean)

end Setting

/-- **A whole parse in which nothing is cut off does the same with more levels.** -/
theorem State.run_of_clean [Alphabet] (limits : Limits) {depth : Nat}
    (hle : limits.maxDepth ≤ depth)
    {text : Text} (h : (State.run limits text).Clean) :
    State.run (limits.deepened depth) text = State.run limits text := by
  have hrules := Setting.extends_atDepth limits hle depth
  exact congrArg Prod.snd (Setting.exec_of_clean hrules depth sourceFile h)

/-! ## Counting up -/

/-- A state with a count of the levels of nesting. -/
structure Counted where
  state : State
  /-- The level that the parser is on. -/
  level : Nat := 0
  /-- The highest level that it has been on. -/
  peak : Nat := 0

namespace Counted

/-- Changes the state and leaves the count. -/
def onState (f : State → State) (c : Counted) : Counted := { c with state := f c.state }

/-- Runs something one level deeper.  At the limit the next token is rejected instead. -/
def nested [Alphabet] (limits : Limits) (body : Counted → Counted) (c : Counted) : Counted :=
  if limits.maxDepth ≤ c.level then
    c.onState fun s => ((Parser.reject .nestingTooDeep).exec limits (fun _ s => s) s).2
  else
    let inner := body { c with level := c.level + 1, peak := max c.peak (c.level + 1) }
    { inner with level := inner.level - 1 }

/-- `State.repeatWhile` with a count. -/
def repeatWhile (step : Counted → Bool × Counted) : (limit : Nat) → Counted → Counted
  | 0, c => c.onState fun s => { s with stalled := true }
  | limit + 1, c =>
    match step c with
    | (true, d) => repeatWhile step limit (d.onState c.state.noteStall)
    | (false, d) => d

end Counted

/-- `Parser.exec` with a count. -/
def Parser.execCounted [Alphabet] (limits : Limits) (apply : Rule → Counted → Counted) {α : Type} :
    Parser α → Counted → α × Counted
  | .andThen first next, c =>
    let (value, c) := execCounted limits apply first c
    execCounted limits apply (next value) c
  | .node body, c =>
    let ((kind, value), inner) :=
      execCounted limits apply body (c.onState fun s => s.enter limits [])
    (value, inner.onState fun s => s.close c.state.children kind)
  | .wrap field body, c =>
    let (last, outer) := (c.state.children.take 1, c.state.children.drop 1)
    let (kind, inner) :=
      execCounted limits apply body
        (c.onState fun s => s.enter limits (last.map (Shape.withField field)))
    ((), inner.onState fun s => s.close outer kind)
  | .loop body, c =>
    ((), Counted.repeatWhile (fun c => execCounted limits apply body c)
      (c.state.place.rest.length + 1) c)
  | .call rule, c => ((), apply rule c)
  | p, c =>
    let (value, s) := p.exec limits (fun _ s => s) c.state
    (value, c.onState fun _ => s)

namespace Counted

/-- Applies a rule one level deeper than the count says.  `fuel` bounds the recursion: more levels
than the limit and one are never entered. -/
def apply [Alphabet] (limits : Limits) : (fuel : Nat) → Rule → Counted → Counted
  | 0, _, c => c
  | fuel + 1, rule, c =>
    c.nested limits fun c => ((Grammar.rule rule).execCounted limits (apply limits fuel) c).2

/-- The state behind a whole source file, with the count. -/
def run [Alphabet] (limits : Limits) (text : Text) : Counted :=
  (sourceFile.execCounted limits (apply limits (limits.maxDepth + 1)) ⟨.start text, 0, 0⟩).2

/-- The state is on the level that leaves so many more, and has been on none beyond the limit. -/
structure OnLevel (limits : Limits) (depth : Nat) (c : Counted) : Prop where
  level_add : c.level + depth = limits.maxDepth
  peak_le : c.peak ≤ limits.maxDepth

theorem OnLevel.onState {limits : Limits} {depth : Nat} {c : Counted} (h : c.OnLevel limits depth)
    (f : State → State) : (c.onState f).OnLevel limits depth := ⟨h.level_add, h.peak_le⟩

/-! ### The count is left as it was found -/

theorem level_nested [Alphabet] (limits : Limits) {body : Counted → Counted}
    (hbody : ∀ c, (body c).level = c.level) (c : Counted) :
    (c.nested limits body).level = c.level := by
  rw [nested]
  split
  · rfl
  · change (body _).level - 1 = c.level
    rw [hbody]
    exact Nat.add_sub_cancel ..

theorem level_repeatWhile {step : Counted → Bool × Counted}
    (hstep : ∀ c, (step c).2.level = c.level) (limit : Nat) (c : Counted) :
    (repeatWhile step limit c).level = c.level := by
  induction limit generalizing c with
  | zero => rfl
  | succ limit ih =>
    have hc := hstep c
    rw [repeatWhile]
    cases hdone : step c with
    | mk goes d =>
      rw [hdone] at hc
      cases goes with
      | true => exact (ih _).trans hc
      | false => exact hc

/-- **Every parser leaves the count as it found it**, if the rules do. -/
theorem level_execCounted [Alphabet] {limits : Limits} {apply : Rule → Counted → Counted}
    (happly : ∀ rule c, (apply rule c).level = c.level) {α : Type} (p : Parser α) (c : Counted) :
    (p.execCounted limits apply c).2.level = c.level := by
  induction p generalizing c with
  | andThen first next ihFirst ihNext => exact (ihNext _ _).trans (ihFirst c)
  | node body ih => exact ih _
  | wrap field body ih => exact ih _
  | loop body ih => exact level_repeatWhile ih _ c
  | call rule => exact happly rule c
  | _ => rfl

theorem level_apply [Alphabet] (limits : Limits) (fuel : Nat) (rule : Rule) (c : Counted) :
    (apply limits fuel rule c).level = c.level := by
  induction fuel generalizing rule c with
  | zero => rfl
  | succ fuel ih => exact level_nested limits (fun c => level_execCounted ih _ c) c

/-! ### The count stays within the limit -/

section
variable {limits : Limits} {depth : Nat}

/-- A repetition does the same with a count, if its step does. -/
theorem counts_repeatWhile {step : State → Bool × State} {counted : Counted → Bool × Counted}
    (hstep : ∀ c, c.OnLevel limits depth → (counted c).1 = (step c.state).1 ∧
      (counted c).2.state = (step c.state).2 ∧ (counted c).2.OnLevel limits depth)
    (limit : Nat) {c : Counted} (hc : c.OnLevel limits depth) :
    (repeatWhile counted limit c).state = State.repeatWhile step limit c.state ∧
      (repeatWhile counted limit c).OnLevel limits depth := by
  induction limit generalizing c with
  | zero => exact ⟨rfl, hc.onState _⟩
  | succ limit ih =>
    have hdone := hstep c hc
    rw [repeatWhile, State.repeatWhile]
    cases hcounted : counted c with
    | mk goes d =>
      cases hplain : step c.state with
      | mk goes' t =>
        rw [hcounted, hplain] at hdone
        obtain ⟨rfl, rfl, hd⟩ := hdone
        cases goes with
        | true => exact ih (hd.onState _)
        | false => exact ⟨rfl, hd⟩

variable [Alphabet]

/-- **Parsers with a count do what they do without it, and stay within the limit**, if the rules
do. -/
theorem counts_execCounted {plain : Rule → State → State} {counted : Rule → Counted → Counted}
    (hrules : ∀ rule c, c.OnLevel limits depth →
      (counted rule c).state = plain rule c.state ∧ (counted rule c).OnLevel limits depth)
    {α : Type} (p : Parser α) {c : Counted} (hc : c.OnLevel limits depth) :
    (p.execCounted limits counted c).1 = (p.exec limits plain c.state).1 ∧
      (p.execCounted limits counted c).2.state = (p.exec limits plain c.state).2 ∧
      (p.execCounted limits counted c).2.OnLevel limits depth := by
  induction p generalizing c with
  | andThen first next ihFirst ihNext =>
    have hfirst := ihFirst hc
    rw [Parser.execCounted, Parser.exec]
    cases hcounted : first.execCounted limits counted c with
    | mk value d =>
      cases hplain : first.exec limits plain c.state with
      | mk value' t =>
        rw [hcounted, hplain] at hfirst
        obtain ⟨rfl, rfl, hd⟩ := hfirst
        exact ihNext value hd
  | node body ih =>
    obtain ⟨hvalue, hstate, hlevel⟩ := ih (hc.onState fun s => s.enter limits [])
    refine ⟨congrArg Prod.snd hvalue, ?_, hlevel.level_add, hlevel.peak_le⟩
    exact congrArg₂ (fun (a : Kind × _) (t : State) => t.close c.state.children a.1) hvalue hstate
  | wrap field body ih =>
    obtain ⟨hvalue, hstate, hlevel⟩ :=
      ih (hc.onState fun s =>
        s.enter limits ((c.state.children.take 1).map (Shape.withField field)))
    refine ⟨rfl, ?_, hlevel.level_add, hlevel.peak_le⟩
    exact congrArg₂ (fun (k : Kind) (t : State) => t.close (c.state.children.drop 1) k)
      hvalue hstate
  | loop body ih =>
    obtain ⟨hstate, hlevel⟩ :=
      counts_repeatWhile (fun c hc => ih hc) (c.state.place.rest.length + 1) hc
    exact ⟨rfl, hstate, hlevel⟩
  | call rule =>
    obtain ⟨hstate, hlevel⟩ := hrules rule c hc
    exact ⟨rfl, hstate, hlevel⟩
  | _ => exact ⟨rfl, rfl, hc.level_add, hc.peak_le⟩

/-- A rule does with a count what it does with so many levels left. -/
theorem counts_apply {fuel : Nat} (hfuel : depth < fuel) (rule : Rule) {c : Counted}
    (hc : c.OnLevel limits depth) :
    (apply limits fuel rule c).state = State.apply limits depth rule c.state ∧
      (apply limits fuel rule c).OnLevel limits depth := by
  induction fuel generalizing depth rule c with
  | zero => omega
  | succ fuel ih =>
    have hlevel := hc.level_add
    rw [apply, nested]
    split
    · rename_i hle
      obtain rfl : depth = 0 := by omega
      exact ⟨rfl, hc.onState _⟩
    · obtain ⟨depth, rfl⟩ : ∃ n, depth = n + 1 := ⟨depth - 1, by omega⟩
      have hbelow : ({ c with level := c.level + 1, peak := max c.peak (c.level + 1) } :
          Counted).OnLevel limits depth :=
        ⟨by change c.level + 1 + depth = _; omega, Nat.max_le.2 ⟨hc.peak_le, by omega⟩⟩
      obtain ⟨-, hstate, hinner⟩ :=
        counts_execCounted (fun rule c hc => ih (by omega) rule hc) (Grammar.rule rule) hbelow
      refine ⟨hstate, Eq.trans ?_ hinner.level_add, hinner.peak_le⟩
      change _ - 1 + (depth + 1) = _ + depth
      rw [level_execCounted (level_apply limits fuel)]
      change c.level + 1 - 1 + (depth + 1) = c.level + 1 + depth
      omega

/-- **A whole parse with a count** is the parse without it, and stays within the limit. -/
theorem counts_run (limits : Limits) (text : Text) :
    (run limits text).state = State.run limits text ∧ (run limits text).peak ≤ limits.maxDepth := by
  have hstart : (⟨.start text, 0, 0⟩ : Counted).OnLevel limits limits.maxDepth :=
    ⟨Nat.zero_add _, Nat.zero_le _⟩
  obtain ⟨-, hstate, hlevel⟩ :=
    counts_execCounted (fun rule c hc => counts_apply (Nat.lt_succ_self _) rule hc)
      sourceFile hstart
  exact ⟨hstate, hlevel.peak_le⟩

end

end Counted

/-! ## Whole parses -/

/-- **The limit on nesting shows only where it is hit.**  A parse that reports no rule as nested too
deeply is the parse with more levels, too.  On the way the count of levels never goes beyond the
limit, and every parser leaves it as it found it. -/
theorem parseWithin_deeper [Alphabet] (text : Text) :
    (∀ depth more, depth ≤ more → ∃ p, parseWithin { maxDepth := depth } text = .ok p ∧
      ((∀ d ∈ p.diagnostics, d.cause ≠ .syntactic .nestingTooDeep) →
        parseWithin { maxDepth := more } text = .ok p)) ∧
    ∀ depth,
      (Counted.run { maxDepth := depth } text).state = State.run { maxDepth := depth } text ∧
      (Counted.run { maxDepth := depth } text).peak ≤ depth ∧
      ∀ (fuel : Nat) (α : Type) (p : Parser α) (c : Counted),
        (p.execCounted { maxDepth := depth } (Counted.apply { maxDepth := depth } fuel) c).2.level =
          c.level := by
  refine ⟨fun depth more hle => ?_, fun depth => ?_⟩
  · have hfree := Limits.endless_maxDepth depth
    obtain ⟨p, hp, hreports⟩ := exists_parseWithin hfree text
    refine ⟨p, hp, fun hclean => ?_⟩
    have hstate : (State.run { maxDepth := depth } text).Clean := by
      refine ⟨State.run_aborted hfree text, fun d hd => hclean d ?_⟩
      rw [hreports]
      exact List.mem_reverse.2 hd
    have hrun : State.run { maxDepth := more } text = State.run { maxDepth := depth } text :=
      State.run_of_clean { maxDepth := depth } hle hstate
    rw [← hp, parseWithin, parseWithin, hrun]
  · obtain ⟨hstate, hpeak⟩ := Counted.counts_run { maxDepth := depth } text
    exact ⟨hstate, hpeak, fun fuel α p c =>
      Counted.level_execCounted (Counted.level_apply _ fuel) p c⟩

/-- Here a call within a list takes some levels, but far fewer than there are. -/
theorem parseWithin_deeper_call :
    ∃ p, parseWithin { maxDepth := 16 } "f([a, g(b)]);".toList = .ok p ∧
    parseWithin {} "f([a, g(b)]);".toList = .ok p := by
  obtain ⟨p, hp, hdeeper⟩ := (parseWithin_deeper "f([a, g(b)]);".toList).1 16 256 (by decide)
  obtain ⟨q, hq, hreports⟩ :=
    exists_parseWithin (Limits.endless_maxDepth 16) "f([a, g(b)]);".toList
  have hnone : (State.run { maxDepth := 16 } "f([a, g(b)]);".toList).reports = [] := by
    decide +kernel
  obtain rfl : p = q := Except.ok.inj (hp.symm.trans hq)
  refine ⟨p, hp, hdeeper fun d hd => ?_⟩
  rw [hreports, hnone] at hd
  cases hd

end ActionScript
