import Mathlib.Data.List.Chain
import ActionScript.Proofs.Printing.Branches

/-!
# Printing and parsing programs

Printed with line breaks only where they are licensed, every program is parsed without a fault into
the tree that it stands for.

* `Stmt.takesAll_of_licensed`: what is licensed may stand behind a line break.
* `Stmt.legible`: every statement is legible, by induction on how it is built.
* `parseWithin_print`: **the round trip.**
-/

set_option autoImplicit false

namespace ActionScript

open ActionScript.Parser ActionScript.Grammar Trivia

namespace Stmt

/-! ## Line breaks -/

theorem getLast?_append_of (ts : List Text) {us : List Text} {t : Text} (h : us.getLast? = some t) :
    (ts ++ us).getLast? = some t := by
  rw [List.getLast?_append, h]
  rfl

/-- What is ended by a line break has it as its last token. -/
theorem getLast?_tokens [Alphabet] {s : Stmt} (h : s.endsLine = true) :
    s.tokens.getLast? = some Text.lineBreak := by
  have hending {ending : Ending} (h : decide (ending = .lineBreak) = true) :
      [ending.text].getLast? = some Text.lineBreak := by
    rw [of_decide_eq_true h]
    rfl
  cases s with
  | empty | block _ | switch _ _ | tryBlock _ _ => cases h
  | expression _ _ | doLoop _ _ _ | exit _ _ _ | jump _ _ _ | declaration _ _ _ =>
    exact getLast?_append_of _ (hending h)
  | ifThen condition body =>
    have hparts : body.endsInIf = false ∧ body.endsLine = true := by simpa [endsLine] using h
    rw [tokens, enbrace, hparts.1]
    exact getLast?_append_of _ (getLast?_tokens hparts.2)
  | whileLoop _ body | forLoop _ _ _ body | forIn _ _ _ body | withObject _ body =>
    have hbody : body.endsLine = true := h
    exact getLast?_append_of _ (getLast?_tokens hbody)
  | ifElse _ _ body =>
    have hbody : body.endsLine = true := h
    exact getLast?_append_of _ (getLast?_append_of [Kind.elseKw.text] (getLast?_tokens hbody))
  | labeled label body =>
    have hbody : body.endsLine = true := h
    exact getLast?_append_of [label.text, Kind.colon.text] (getLast?_tokens hbody)

/-- **What is licensed may stand behind a line break.** -/
theorem takesAll_of_licensed [Alphabet] {ss : List Stmt} (h : Licensed (tokensAll ss))
    {lead : List Trivia}
    (hfirst : ∀ s ∈ ss.head?, s.Takes lead) : TakesAll ss lead := by
  induction ss generalizing lead with
  | nil => trivial
  | cons s ss ih =>
    obtain ⟨-, hothers, hjoin⟩ := List.isChain_append.1 h
    refine ⟨hfirst s rfl, ih hothers fun t ht => ⟨s.leads_leaves, fun hne u hu => ?_⟩⟩
    have hline : s.endsLine = true := by
      by_contra hno
      exact hne (if_neg hno)
    obtain ⟨ts, rfl⟩ := List.head?_eq_some_iff.1 ht
    refine hjoin _ (getLast?_tokens hline) u ?_ rfl
    rw [tokensAll, List.head?_append, hu]
    rfl

theorem licensed_enbrace {need : Bool} {ts : List Text} (h : Licensed (enbrace need ts)) :
    Licensed ts := by
  cases need with
  | false => exact h
  | true => exact List.IsChain.tail (List.IsChain.left_of_append h)

/-! ## Every statement is legible -/

variable {limits : Limits}

variable [Alphabet]

mutual

/-- **Every statement is legible** whose line breaks are licensed. -/
theorem legible (hl : limits.Endless) (s : Stmt) (h : Licensed s.tokens) {n : Nat}
    (hn : s.levels ≤ n) : s.IsLegible limits n := by
  cases s with
  | empty => exact legible_empty hl
  | block body =>
    rw [levels] at hn
    obtain ⟨k, rfl⟩ : ∃ k, n = k + 1 := ⟨n - 1, by omega⟩
    exact legible_block hl (areLegible hl body (licensed_enbrace h) (by omega))
  | expression e ending => exact (legible_expression hl e ending).mono hn
  | ifThen condition consequence =>
    rw [levels] at hn
    obtain ⟨k, rfl⟩ : ∃ k, n = k + 2 := ⟨n - 2, by omega⟩
    have hbody := consequence.legible hl (licensed_enbrace h.right_of_append) (n := k) (by omega)
    exact legible_ifThen hl hbody (by omega)
  | ifElse condition consequence alternative =>
    rw [levels] at hn
    obtain ⟨k, rfl⟩ : ∃ k, n = k + 2 := ⟨n - 2, by omega⟩
    have hbody :=
      consequence.legible hl (licensed_enbrace h.left_of_append.right_of_append) (n := k)
      (by omega)
    have helse := alternative.legible hl h.right_of_append.tail (n := k + 1) (by omega)
    exact legible_ifElse hl hbody helse (by omega)
  | whileLoop condition body =>
    rw [levels] at hn
    obtain ⟨k, rfl⟩ : ∃ k, n = k + 1 := ⟨n - 1, by omega⟩
    exact legible_whileLoop hl (body.legible hl h.right_of_append (by omega)) (by omega)
  | doLoop body condition ending =>
    rw [levels] at hn
    obtain ⟨k, rfl⟩ : ∃ k, n = k + 1 := ⟨n - 1, by omega⟩
    have hbody := body.legible hl h.left_of_append.left_of_append.tail (n := k) (by omega)
    exact legible_doLoop hl hbody (by omega) ending
  | forLoop first condition update body =>
    rw [levels] at hn
    obtain ⟨k, rfl⟩ : ∃ k, n = k + 1 := ⟨n - 1, by omega⟩
    exact legible_forLoop hl (body.legible hl h.right_of_append (by omega)) (by omega) (by omega)
      (by omega)
  | forIn each target collection body =>
    rw [levels] at hn
    obtain ⟨k, rfl⟩ : ∃ k, n = k + 1 := ⟨n - 1, by omega⟩
    exact legible_forIn hl each (body.legible hl h.right_of_append (by omega)) (by omega)
  | withObject object body =>
    rw [levels] at hn
    obtain ⟨k, rfl⟩ : ∃ k, n = k + 1 := ⟨n - 1, by omega⟩
    exact legible_withObject hl (body.legible hl h.right_of_append (by omega)) (by omega)
  | switch value clauses =>
    rw [levels, Expr.levels] at hn
    obtain ⟨k, rfl⟩ : ∃ k, n = k + 1 := ⟨n - 1, by omega⟩
    have hclauses :=
      legibleClauses hl clauses (licensed_enbrace h.right_of_append) (n := k) (by omega)
    exact legible_switch hl hclauses (by rw [Expr.levels]; omega)
  | tryBlock body handlers =>
    rw [levels] at hn
    obtain ⟨k, rfl⟩ : ∃ k, n = k + 1 := ⟨n - 1, by omega⟩
    have hbody := areLegible hl body (licensed_enbrace h.left_of_append.tail) (n := k) (by omega)
    exact legible_tryBlock hl hbody (legibleHandlers hl handlers h.right_of_append (by omega))
  | exit keyword operand ending => exact (legible_exit hl keyword operand ending).mono hn
  | jump keyword label ending => exact legible_jump hl keyword label ending n
  | labeled label body =>
    rw [levels] at hn
    obtain ⟨k, rfl⟩ : ∃ k, n = k + 1 := ⟨n - 1, by omega⟩
    exact legible_labeled hl (body.legible hl h.tail.tail (by omega))
  | declaration first others ending => exact (legible_declaration hl first others ending).mono hn

theorem areLegible (hl : limits.Endless) (ss : List Stmt) (h : Licensed (tokensAll ss)) {n : Nat}
    (hn : levelsAll ss ≤ n) : AreLegible limits n ss := by
  refine ⟨?_, takesAll_of_licensed h fun s _ => s.takes_nil⟩
  match ss with
  | [] => exact fun s hs => absurd hs List.not_mem_nil
  | s :: ss =>
    rw [levelsAll] at hn
    have hs := s.legible hl h.left_of_append (n := n) (by omega)
    exact List.forall_mem_cons.2 ⟨hs, (areLegible hl ss h.right_of_append (by omega)).each⟩

theorem legibleClauses (hl : limits.Endless) (clauses : List Clause)
    (h : Licensed (tokensOfClauses clauses)) {n : Nat} (hn : levelsOfClauses clauses ≤ n + 1) :
    ∀ c ∈ clauses, c.IsLegible limits n := by
  match clauses with
  | [] => exact fun c hc => absurd hc List.not_mem_nil
  | .mk (some value) body :: clauses =>
    rw [levelsOfClauses] at hn
    have hbody := areLegible hl body h.left_of_append.right_of_append.tail (n := n) (by omega)
    refine List.forall_mem_cons.2
      ⟨⟨?_, hbody⟩, legibleClauses hl clauses h.right_of_append (by omega)⟩
    exact Nat.le_trans (Nat.le_max_left _ _) hn
  | .mk none body :: clauses =>
    rw [levelsOfClauses] at hn
    have hbody := areLegible hl body h.left_of_append.tail.tail (n := n) (by omega)
    exact List.forall_mem_cons.2 ⟨⟨Nat.zero_le _, hbody⟩,
      legibleClauses hl clauses h.right_of_append (by omega)⟩

theorem legibleHandlers (hl : limits.Endless) (handlers : Handlers)
    (h : Licensed (tokensOfHandlers handlers)) {n : Nat} (hn : levelsOfHandlers handlers ≤ n + 1) :
    ∀ ss ∈ handlers.bodies, AreLegible limits n ss := by
  cases handlers with
  | last parameter body =>
    rw [levelsOfHandlers] at hn
    exact List.forall_mem_singleton.2
      (areLegible hl body (licensed_enbrace h.right_of_append) (by omega))
  | lastFinally parameter body finalizer =>
    rw [levelsOfHandlers] at hn
    have hbody := areLegible hl body (licensed_enbrace h.left_of_append.right_of_append) (n := n)
      (by omega)
    exact List.forall_mem_cons.2 ⟨hbody, List.forall_mem_singleton.2
      (areLegible hl finalizer (licensed_enbrace h.right_of_append.tail) (by omega))⟩
  | more parameter body others =>
    rw [levelsOfHandlers] at hn
    have hbody := areLegible hl body (licensed_enbrace h.left_of_append.right_of_append) (n := n)
      (by omega)
    exact List.forall_mem_cons.2 ⟨hbody, legibleHandlers hl others h.right_of_append (by omega)⟩

end

/-! ## The end of the text -/

/-- What a row at the end of the text leaves. -/
theorem leavesAll_nil_cases (ss : List Stmt) :
    leavesAll ss [] [] = [] ∨ leavesAll ss [] [] = [⟨.newline, ['\n']⟩] := by
  cases hlast : ss.getLast? with
  | none =>
    obtain rfl := List.getLast?_eq_none_iff.1 hlast
    exact .inl rfl
  | some s =>
    rw [leavesAll_of_getLast? hlast, leaves]
    split
    · exact .inr rfl
    · exact .inl rfl

/-- The end of the text is read behind a line break, too. -/
theorem reads_end (ss : List Stmt) :
    Mode.operator.ReadsBehind (leavesAll ss [] []) (flatten (leavesAll ss [] [])) .eof
      [] [] [] := by
  rcases leavesAll_nil_cases ss with hleaves | hleaves <;>
    rw [hleaves] <;> rintro ⟨offset, rest⟩ rfl <;>
    exact ⟨rfl, rfl⟩

/-- The last statement is followed by the end of the text. -/
theorem followed_end {ss : List Stmt} {s : Stmt} (hs : s ∈ ss.getLast?) :
    s.Followed [] (flatten (leavesAll ss [] [])) := by
  have hend : Text.ahead (flatten (leavesAll ss [] [])) ≠ .name := by
    rw [(reads_end ss).ahead]
    decide
  have hnone := Text.not_shows_of_ahead hend
  refine ⟨?_, fun k _ => hnone k, fun _ => hnone _⟩
  rw [leavesAll_of_getLast? hs, leaves, Text.Closes]
  split
  · exact ⟨⟨rfl, rfl⟩, rfl, (by decide : Kind.eof ∈ [Kind.name, .lCurly, .rCurly, .eof]),
      fun _ => rfl⟩
  · exact .inr ⟨rfl, rfl⟩

/-- **The repetition of statements** takes the program, and stops at the end of the text. -/
theorem rounds_program (hl : limits.Endless) {ss : List Stmt} (h : Licensed (tokensAll ss))
    {depth : Nat} (hdepth : levelsAll ss + 1 ≤ depth) :
    (Setting.atDepth limits depth).Rounds statementRound ⟨print ss, .operator, []⟩
      ⟨flatten (leavesAll ss [] []), .operator, (shapesAll ss [] []).reverse⟩ := by
  obtain ⟨below, rfl⟩ : ∃ below, depth = below + 1 := ⟨depth - 1, by omega⟩
  have hss := areLegible hl ss h (Nat.le_refl _)
  have hprint :
      print ss = Shape.sourceAll (shapesAll ss [] []) ++ flatten (leavesAll ss [] []) := by
    have hsource := source_shapesAll ss [] [] []
    simpa [print, ← spaced_nil, flatten] using hsource.symm
  rw [hprint]
  refine rounds_shapesAll (f := id) hss.each hss.takes (fun s hs => followed_end hs) ?_ (.last ?_)
  · intro s hs lead hlead tail more hmore made
    have hne := (hs.opens lead hlead tail more hmore).ahead_ne
    have hstatement := hs.goes below (by omega) lead hlead tail more hmore .operator made
    exact Setting.goes_statementRound (by simp [hne]) hstatement .operator
  · rw [List.map_id, List.append_nil]
    exact Setting.goes_statementRound_end (reads_end ss).ahead .operator _

end Stmt

/-! ## The round trip -/

namespace State

/-- Behind the end of the text stands the program that is meant. -/
theorem at_run_print [Alphabet] {limits : Limits} (hl : limits.Endless) {ss : List Stmt}
    (h : Stmt.Licensed (Stmt.tokensAll ss)) (hdepth : Stmt.levelsAll ss + 1 ≤ limits.maxDepth) :
    (State.run limits (Stmt.print ss)).At ⟨[], .operator, [(Stmt.program ss).shape]⟩ :=
  at_run_statements hl (Stmt.rounds_program hl h hdepth) (Stmt.reads_end ss)

end State

/-- **Printing and parsing a program.**  Statements that are printed on one line, with line breaks
in place of semicolons wherever those are licensed, are parsed without a diagnostic into the tree
that they stand for, if nesting is not limited below their height. -/
theorem parseWithin_print [Alphabet] {limits : Limits} (hl : limits.Endless) (ss : List Stmt)
    (hlicensed : Stmt.Licensed (Stmt.tokensAll ss))
    (hdepth : Stmt.levelsAll ss + 1 ≤ limits.maxDepth) :
    parseWithin limits (Stmt.print ss) =
      .ok ⟨Tree.ofStem (Stmt.print ss) (Stmt.program ss), []⟩ := by
  have hat := State.at_run_print hl hlicensed hdepth
  have htree : Tree.ofEvents? (Stmt.print ss) (Shape.eventsAll [(Stmt.program ss).shape].reverse) =
      .ok (Tree.ofStem (Stmt.print ss) (Stmt.program ss)) := by
    have hbuild := Tree.ofEvents?_eventsAll .sourceFile none (Stmt.program ss).children.reverse
    rw [Stmt.sourceAll_program, List.reverse_reverse] at hbuild
    exact hbuild
  simp only [parseWithin, hat.aborted, hat.children, hat.reports, htree, List.reverse_nil]

/-- A line break ends a statement in front of a closing brace, a keyword and the end of the text. -/
theorem parseWithin_print_lines : ∃ ss : List Stmt,
    Stmt.print ss =
      "if ( a ) \x7b b ( a ) \n \x7d else break \n for each ( a in b ) return \n".toList ∧
      parseWithin {} (Stmt.print ss) = .ok ⟨Tree.ofStem (Stmt.print ss) (Stmt.program ss), []⟩ := by
  let a : Name := ⟨['a'], ⟨'a', [], rfl, by decide +kernel, rfl⟩, by decide +kernel⟩
  let b : Name := ⟨['b'], ⟨'b', [], rfl, by decide +kernel, rfl⟩, by decide +kernel⟩
  let call : Expr := .call (.reference (.name b)) [.reference (.name a)]
  refine ⟨[.ifElse (.reference (.name a)) (.block [.expression call .lineBreak])
      (.jump ⟨.breakKw, .inl rfl⟩ none .lineBreak),
    .forIn true a (.reference (.name b)) (.exit ⟨.returnKw, .inl rfl⟩ none .lineBreak)], rfl, ?_⟩
  exact parseWithin_print (Limits.endless_maxDepth _) _
    (by unfold Stmt.Licensed; decide) (by decide)

end ActionScript
