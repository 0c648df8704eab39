import ActionScript.Proofs.Order.Statements

/-!
# Files are orderly

A file rejects the closing braces that close nothing, each by itself, and reports them where they
stand.

* `State.orderly_run`: **all nodes of a parse are orderly.**
* `Shape.Announced`: closing braces that close nothing are reported as unmatched.
-/

set_option autoImplicit false

namespace ActionScript

open ActionScript.Parser ActionScript.Grammar

/-! ## Closing braces that close nothing -/

namespace Shape

/-- The diagnostic for a closing brace behind so many bytes. -/
def unmatched (offset : Nat) (leading : List Trivia) (text : Text) : Diagnostic :=
  let start := offset + (Trivia.flatten leading).size
  ⟨.syntactic .unmatchedBrace, ⟨start, start + text.size⟩⟩

/-- Closing braces that close nothing are reported where they stand.  The shapes come in the order
in which they were made, the last one first. -/
def Announced (reports : List Diagnostic) : List Shape → Prop
  | [] => True
  | c :: cs =>
    (∀ field leading text trailing,
      c = .node .error field [.token .rCurly none leading text trailing] →
      unmatched (sourceAll cs.reverse).size leading text ∈ reports) ∧ Announced reports cs

variable {reports : List Diagnostic} {cs : List Shape}

theorem Announced.mono {more : List Diagnostic} (h : Announced reports cs)
    (hmore : reports ⊆ more) : Announced more cs := by
  induction cs with
  | nil => trivial
  | cons c cs ih =>
    exact ⟨fun field leading text trailing hc => hmore (h.1 field leading text trailing hc), ih h.2⟩

theorem Announced.of_append {before : List Shape} (h : Announced reports (before ++ cs)) :
    Announced reports cs := by
  induction before with
  | nil => exact h
  | cons c before ih => exact ih h.2

/-- What has been announced, told in the order of the text. -/
theorem Announced.mem_of_split {before behind : List Shape} {field : Option Field}
    {leading : List Trivia} {text : Text} {trailing : List Trivia} (h : Announced reports
      (before ++ .node .error field [.token .rCurly none leading text trailing] ::
        behind).reverse) :
    unmatched (sourceAll before).size leading text ∈ reports := by
  rw [List.reverse_append, List.reverse_cons, List.append_assoc] at h
  simpa using h.of_append.1 field leading text trailing rfl

/-- A common child is no such brace. -/
theorem Announced.cons_common {c : Shape} (h : Announced reports cs) (hc : c.Common True) :
    Announced reports (c :: cs) := by
  refine ⟨?_, h⟩
  rintro field leading text trailing rfl
  rcases hc.error trivial rfl with hnone | hmetadata
  · exact absurd rfl (hnone (.token .rCurly none leading text trailing) (by simp))
  · cases hmetadata _ (List.mem_singleton_self _)

end Shape

/-- What has been taken reaches up to the next token. -/
theorem State.Reads.offset_eq [Alphabet] {s t : State} (h : s.Reads t)
    (hreaches : s.place.Reaches t.place)
    (hs : s.place.offset = (Shape.sourceAll s.children.reverse).size) :
    t.place.offset = (Shape.sourceAll t.children.reverse).size := by
  obtain ⟨modes, taken, hplace, htokens, hkeeps, -⟩ := h
  obtain ⟨read, hrest, hoffset⟩ := hreaches
  have hsource := s.place.read_source modes
  rw [← hplace, hrest] at hsource
  rw [hoffset, hs, ← List.append_cancel_right hsource,
    ← Shape.sourceAll_tokensAll t.children.reverse, htokens, Shape.sourceAll_append,
    Shape.sourceAll_tokensAll, Shape.sourceAll_of_keeps hkeeps, Text.size_append]

namespace Setting

variable [Alphabet] {E : Setting} {q : Prop} {s : State}

/-! ## Rounds -/

/-- A closing brace is rejected by itself, and reported. -/
theorem reject_rCurly {error : SyntaxError} (h : s.place.ahead = .rCurly)
    (ha : (E.after (reject error) s).aborted = none) :
    let t := (s.place.next .operator).1
    (E.after (reject error) s).children =
        .node .error none [.token .rCurly none t.leading t.text t.trailing] :: s.children ∧
      ⟨.syntactic error, t.span⟩ ∈ (E.after (reject error) s).reports := by
  have hleaf :
      E.after (reject error) s = E.after (leaf .error) ((s.inMode .operator).report error) := by
    simp [reject, h]
  rw [hleaf] at ha ⊢
  have hgrows := E.leads_after (leaf .error) ((s.inMode .operator).report error)
  have hs : s.aborted = none := by simpa using hgrows.aborted ha
  have hreport : (s.inMode .operator).report error =
      { s.inMode .operator with
        reports := ⟨.syntactic error, (s.place.next .operator).1.span⟩ :: s.reports } := by
    simp [State.report, hs, State.token]
  have hsees : ((s.inMode .operator).report error).Sees (·.kind = .rCurly) := by
    simpa using fun _ => h
  refine ⟨?_, hgrows.reports.subset (by rw [hreport]; exact List.mem_cons_self)⟩
  have hkind := hsees.enter E.limits []
    ((State.Leads.takeAs (((s.inMode .operator).report error).enter E.limits []) E.limits _
      none).aborted ha)
  rw [leaf, after_nodeOf, after_take, hkind] at ha ⊢
  rw [children_around ha, hreport]
  rfl

omit [Alphabet] in
theorem every_stray {field : Option Field} {leading : List Trivia} {text : Text}
    {trailing : List Trivia} :
    (Shape.node .error field [.token .rCurly none leading text trailing]).Every (Shape.Orderly q) :=
  Shape.every_node.2 ⟨orderly_error (by simp [Shape.isNode]), by simp [Shape.every_token]⟩

theorem safe_statementRound : E.Safe statementRound s := by
  simp [statementRound, Rule.Ready]

/-- A round is over, or takes a brace that closes nothing, or makes a statement. -/
theorem statementRound_cases (hE : E.Ordered q) (ht : (E.after statementRound s).Calm q) :
    let u := E.after statementRound s
    let t := (s.place.next .operator).1
    u.children = s.children ∨
    (u.children = .node .error none [.token .rCurly none t.leading t.text t.trailing] ::
      s.children ∧
      ⟨.syntactic .unmatchedBrace, t.span⟩ ∈ u.reports) ∨
    ∃ c : Shape, u.children = c :: s.children ∧ c.Every (Shape.Orderly q) ∧ c.Common q := by
  simp only [statementRound, after_bind, val_peek, after_peek, after_ite, after_pure,
    beq_iff_eq] at ht ⊢
  split
  · exact .inl rfl
  · rename_i heof
    rw [if_neg heof] at ht
    split
    · rename_i hcurly
      rw [if_pos hcurly] at ht
      exact .inr (.inl (reject_rCurly (s := s.inMode .operator) hcurly ht.aborted))
    · rename_i hcurly
      rw [if_neg hcurly] at ht
      obtain ⟨kind, kids, hchildren, hevery, hcommon⟩ :=
        hE .statement (s.inMode .operator) trivial ht
      exact .inr (.inr ⟨_, hchildren, hevery, hcommon⟩)

/-- **What stands in a file** is in order. -/
theorem filed_statements (hE : E.Ordered q) (hs : s.Filed q)
    (ht : (E.after (loop statementRound) s).Calm q) :
    (E.after (loop statementRound) s).Filed q := by
  refine after_loop_induct (fun t => t.Calm q → t.Filed q) (fun _ => hs)
    (fun t stalled h ht => h ⟨ht.aborted, ht.reports⟩) (fun t h ht => ?_) ht
  have hfiled : t.Filed q := h ((E.leads_after _ t).calm ht)
  rcases statementRound_cases hE ht with hsame | ⟨hchildren, -⟩ | ⟨c, hchildren, hevery, hcommon⟩
  · rwa [State.Filed, hsame]
  · rw [State.Filed, hchildren]
    exact List.forall_mem_cons.2 ⟨⟨every_stray, .inr ⟨_, _, _, _, rfl⟩⟩, hfiled⟩
  · rw [State.Filed, hchildren]
    exact List.forall_mem_cons.2 ⟨⟨hevery, .inl hcommon⟩, hfiled⟩

/-- **Closing braces that close nothing are reported.** -/
theorem announced_statements (hE : E.Ordered True)
    (hrules : ∀ (rule : Rule) (s : State), rule.Ready s → s.Consumes (E.apply rule s))
    (hs : s.place.offset = (Shape.sourceAll s.children.reverse).size ∧
      Shape.Announced s.reports s.children)
    (ht : (E.after (loop statementRound) s).Calm True) :
    Shape.Announced (E.after (loop statementRound) s).reports
      (E.after (loop statementRound) s).children := by
  refine
    (after_loop_induct
      (fun t => t.Calm True → t.place.offset = (Shape.sourceAll t.children.reverse).size ∧
    Shape.Announced t.reports t.children) (fun _ => hs)
    (fun t stalled h ht => h ⟨ht.aborted, ht.reports⟩) (fun t h ht => ?_) ht).2
  have hgrows := E.leads_after statementRound t
  obtain ⟨hoffset, hannounced⟩ := h (hgrows.calm ht)
  refine ⟨((consumes_after hrules safe_statementRound).reads ht.aborted).offset_eq hgrows.place
    hoffset, ?_⟩
  have hmore := hannounced.mono hgrows.reports.subset
  rcases statementRound_cases hE ht with hsame | ⟨hchildren, hreport⟩ | ⟨c, hchildren, -, hcommon⟩
  · rwa [hsame]
  · rw [hchildren]
    refine ⟨?_, hmore⟩
    rintro field leading text trailing hc
    cases hc
    rw [← hoffset]
    exact hreport
  · rw [hchildren]
    exact hmore.cons_common hcommon

end Setting

/-! ## Whole parses -/

/-- **What a parse has gathered** when the text is at its end: common children, and closing braces
that close nothing, which are reported. -/
theorem State.exists_statements [Alphabet] {q : Prop} {limits : Limits} {text : Text}
    (ht : (State.run limits text).Calm q) : ∃ t : State, t.Filed q ∧
      (q → Shape.Announced (State.run limits text).reports t.children) ∧ ∃ leading last trailing,
      (State.run limits text).children =
        [.node .sourceFile none
          (t.children.reverse ++ [.token .eof none leading last trailing])] := by
  let E := Setting.atDepth limits limits.maxDepth
  obtain ⟨-, hmode, heof⟩ :=
    Setting.runs_statements (E := E) (s := (State.start text).enter E.limits [])
  change (E.after sourceFile (State.start text)).Calm q at ht
  change ∃ t : State, t.Filed q ∧
    (q → Shape.Announced (E.after sourceFile (State.start text)).reports t.children) ∧
    ∃ leading last trailing, (E.after sourceFile (State.start text)).children = _
  rw [sourceFile_eq, Setting.after_nodeOf, Setting.after_bind, Setting.after_take] at ht ⊢
  have hcalm := (State.Leads.takeAs _ _ _ _).calm ht.of_close
  have hfiled := Setting.filed_statements (Setting.ordered_atDepth limits limits.maxDepth)
    (fun c hc => absurd hc List.not_mem_nil) hcalm
  refine ⟨_, hfiled, fun hq => ?_, ?_⟩
  · obtain rfl : q = True := eq_true hq
    have hnone : Shape.Announced ((State.start text).enter E.limits []).reports
        ((State.start text).enter E.limits []).children := by
      rw [State.enter_children]
      trivial
    have hstart : ((State.start text).enter E.limits []).place.offset =
        (Shape.sourceAll ((State.start text).enter E.limits []).children.reverse).size := by
      rw [State.enter_children]
      rcases (State.start text).enter_cases E.limits [] with ⟨hplace, -⟩ | ⟨hna, -⟩
      · rw [hplace]
        rfl
      · exact absurd ((E.leads_after (loop statementRound) _).aborted hcalm.aborted) hna
    generalize (State.start text).enter E.limits [] = s at *
    have hannounced := Setting.announced_statements (Setting.ordered_atDepth limits limits.maxDepth)
      (Setting.consumes_atDepth limits limits.maxDepth) ⟨hstart, hnone⟩ hcalm
    exact hannounced.mono
      (State.Leads.takeAs (E.after (loop statementRound) s) E.limits _ none).reports.subset
  · generalize E.after (loop statementRound) _ = t at hmode heof ⊢
    have hkind : t.token.kind = .eof := by rw [State.token, hmode, Place.next_operator_kind, heof]
    refine ⟨t.token.leading, t.token.text, t.token.trailing, ?_⟩
    rw [State.close_children, State.takeAs_children, hkind, List.reverse_cons]
    rfl

/-- **All nodes of a parse are orderly**, but for errors. -/
theorem State.orderly_run [Alphabet] {limits : Limits} {text : Text}
    (ha : (State.run limits text).aborted = none) :
    (State.run limits text).Every (Shape.Orderly False) := by
  obtain ⟨t, hfiled, -, leading, last, trailing, hchildren⟩ :=
    State.exists_statements (q := False) ⟨ha, fun h => h.elim⟩
  intro c hc
  rw [hchildren] at hc
  obtain rfl := List.mem_singleton.1 hc
  have hkids : ∀ c ∈ t.children.reverse ++ [.token .eof none leading last trailing],
      c.Every (Shape.Orderly False) ∧ (c.Common False ∨ c.IsStray) := by
    intro c hc
    rcases List.mem_append.1 hc with hc | hc
    · exact hfiled c (List.mem_reverse.1 hc)
    · obtain rfl := List.mem_singleton.1 hc
      exact ⟨Shape.every_token _ _ _ _ _, .inl ⟨rfl, rfl, fun h => h.elim⟩⟩
  exact Shape.every_node.2 ⟨.of_filed fun c hc => (hkids c hc).2, fun c hc => (hkids c hc).1⟩

end ActionScript
