import ActionScript.Workspace
import ActionScript.Proofs.Refinement
import ActionScript.Proofs.Explained
import ActionScript.Proofs.Sessions

/-!
# Where diagnostics lie

A diagnostic marks a token that was looked at, or the flaw of one that was taken.  Both lie in the
text between the ends of characters, however often the token was read before, and in whatever mode.
The flaws are those of the tokens of the tree, one for each token that has one, in the order of the
text.

* `State.Marks`: all reports of a state lie in the text.
* `Place.pairwise_reports`: flaws of tokens read one after the other lie one behind the other.
* `ranges_of_parseWithin`: **where the diagnostics of a parse lie**.
-/

set_option autoImplicit false

namespace ActionScript

/-! ## Stretches of text -/

namespace Text

theorem IsBoundary.le_size {t : Text} {n : Nat} (h : t.IsBoundary n) : n ≤ t.size := by
  obtain ⟨before, after, rfl, rfl⟩ := h
  simp

end Text

/-! ## Tokens -/

namespace Place

variable {p : Place} {text before : Text} {mode : Mode} {d : Diagnostic}

/-- What is left at the place is the end of the text. -/
def EndOf (p : Place) (text : Text) : Prop :=
  ∃ before, text = before ++ p.rest ∧ before.size = p.offset

theorem endOf_start (text : Text) : (start text).EndOf text := ⟨[], rfl, rfl⟩

theorem EndOf.of_reaches {q : Place} (h : p.EndOf text) (hq : p.Reaches q) : q.EndOf text := by
  obtain ⟨before, rfl, hsize⟩ := h
  obtain ⟨read, hrest, hoffset⟩ := hq
  exact ⟨before ++ read, by rw [hrest, List.append_assoc], by rw [Text.size_append, hoffset, hsize]⟩

variable [Alphabet]

/-- A token that is read lies in the text, and so does its flaw. -/
theorem EndOf.span_within (h : p.EndOf text) (mode : Mode) : (p.next mode).1.span.Within text := by
  obtain ⟨before, rfl, hsize⟩ := h
  have hfits := next_fits hsize mode
  exact ⟨Nat.le_add_right _ _, hfits.boundary _ (by simp [Token.bounds]),
    hfits.boundary _ (by simp [Token.bounds])⟩

theorem EndOf.report_within (h : p.EndOf text) (hd : d ∈ (p.next mode).1.report?) :
    d.span.Within text := by
  obtain ⟨before, rfl, hsize⟩ := h
  obtain ⟨flaw, hflaw, rfl⟩ := Option.map_eq_some_iff.1 hd
  have hfits := next_fits hsize mode
  exact ⟨Nat.le_of_lt (hfits.flaw_pos flaw hflaw), hfits.boundary _ (by simp [Token.bounds, hflaw]),
    hfits.boundary _ (by simp [Token.bounds, hflaw])⟩

/-- The flaw of a token lies between the places before and behind it. -/
theorem report_between (hd : d ∈ (p.next mode).1.report?) :
    p.offset ≤ d.span.start ∧ d.span.start < d.span.stop ∧
    d.span.stop ≤ (p.next mode).2.offset := by
  obtain ⟨flaw, hflaw, rfl⟩ := Option.map_eq_some_iff.1 hd
  rw [next_offset]
  exact (next_marks hflaw).span_le

theorem reports_behind (modes : List Mode) :
    ∀ d ∈ (p.read modes).1.filterMap Token.report?, p.offset ≤ d.span.start ∧
      d.span.start < d.span.stop := by
  induction modes generalizing p with
  | nil => simp
  | cons mode modes ih =>
    intro d hd
    obtain ⟨t, ht, hd⟩ := List.mem_filterMap.1 hd
    rw [read_cons, List.mem_cons] at ht
    rcases ht with rfl | ht
    · exact ⟨(report_between hd).1, (report_between hd).2.1⟩
    · obtain ⟨hstart, hpos⟩ := ih d (List.mem_filterMap.2 ⟨t, ht, hd⟩)
      exact ⟨Nat.le_trans (p.reaches_next mode).offset_le hstart, hpos⟩

/-- **The flaws of tokens that are read one after the other lie one behind the other.** -/
theorem pairwise_reports (modes : List Mode) :
    ((p.read modes).1.filterMap Token.report?).Pairwise fun d e => d.span.stop ≤ e.span.start := by
  induction modes generalizing p with
  | nil => exact .nil
  | cons mode modes ih =>
    rw [read_cons, List.filterMap_cons]
    cases hd : (p.next mode).1.report? with
    | none => exact ih
    | some d =>
      refine List.pairwise_cons.2 ⟨fun e he => ?_, ih⟩
      exact Nat.le_trans (report_between hd).2.2 (reports_behind modes e he).1

end Place

/-! ## Runs -/

/-- The next token is read from the end of the text, and all reports lie in the text. -/
structure State.Marks (s : State) (text : Text) : Prop where
  place : s.place.EndOf text
  reports : ∀ d ∈ s.reports, d.span.Within text

namespace State.Marks

variable {s t : State} {text : Text}

theorem of_leads (h : s.Marks text) (hlead : s.Leads t) (hr : t.reports = s.reports) :
    t.Marks text :=
  ⟨h.place.of_reaches hlead.place, fun d hd => h.reports d (hr ▸ hd)⟩

theorem takeAs [Alphabet] (h : s.Marks text) (limits : Limits) (kind : Kind)
    (field : Option Field) :
    (s.takeAs limits kind field).Marks text := by
  refine ⟨h.place.of_reaches (Leads.takeAs s limits kind field).place, fun d hd => ?_⟩
  rw [takeAs_reports_eq, List.mem_append, Option.mem_toList] at hd
  exact hd.elim h.place.report_within (h.reports d)

theorem report [Alphabet] (h : s.Marks text) (error : SyntaxError) :
    (s.report error).Marks text := by
  refine ⟨h.place.of_reaches (Leads.report s error).place, fun d hd => ?_⟩
  unfold State.report at hd
  split at hd
  · exact h.reports d hd
  · rcases List.mem_cons.1 hd with rfl | hd
    · exact h.place.span_within _
    · exact h.reports d hd

theorem enter (h : s.Marks text) (limits : Limits) (children : List Shape) :
    (s.enter limits children).Marks text := h.of_leads (.enter s limits children) (by simp)

end State.Marks

section

variable [Alphabet]

namespace Setting

variable {E : Setting} {α : Type} {text : Text} {s : State}

/-- **Whatever is reported lies in the text**, if that holds of the rules. -/
theorem marks_after (hrules : ∀ rule s, State.Marks s text → (E.apply rule s).Marks text)
    {p : Parser α} (h : s.Marks text) : (E.after p s).Marks text := by
  induction p generalizing s with
  | done value => exact h
  | andThen first next ihFirst ihNext => exact ihNext _ (ihFirst h)
  | look mode => exact ⟨h.place, h.reports⟩
  | ahead distance => exact ⟨h.place, h.reports⟩
  | take field => exact h.takeAs _ _ _
  | takeWord keyword field => exact h.takeAs _ _ _
  | report error => exact h.report error
  | node body ih => exact ⟨(ih (h.enter _ _)).place, (ih (h.enter _ _)).reports⟩
  | wrap field body ih => exact ⟨(ih (h.enter _ _)).place, (ih (h.enter _ _)).reports⟩
  | label field => exact h.of_leads (.labelLast s field) (by simp)
  | loop body ih =>
    exact after_loop_induct (State.Marks · text) h (fun _ _ h => ⟨h.place, h.reports⟩) fun _ => ih
  | call rule => exact hrules rule s h
  | require mode kind => exact ⟨h.place, h.reports⟩

theorem marks_atDepth (limits : Limits) (depth : Nat) (rule : Rule) (s : State) (h : s.Marks text) :
    ((atDepth limits depth).apply rule s).Marks text := by
  induction depth generalizing rule s with
  | zero =>
    change (State.apply limits 0 rule s).Marks text
    rw [apply_zero]
    exact marks_after (fun _ s h => ⟨h.place.of_reaches s.place.reaches_finish, h.reports⟩) h
  | succ depth ih =>
    rw [atDepth_succ]
    exact marks_after ih h

end Setting

/-- Behind a whole parse all reports lie in the text. -/
theorem State.marks_run (limits : Limits) (text : Text) : (State.run limits text).Marks text :=
  Setting.marks_after (E := Setting.atDepth limits limits.maxDepth) (Setting.marks_atDepth limits _)
    (p := Grammar.sourceFile) ⟨Place.endOf_start text, fun _ hd => absurd hd List.not_mem_nil⟩

/-! ## Every parse -/

/-- Each diagnostic marks a stretch of the text. -/
theorem span_within_of_parseWithin {limits : Limits} {text : Text} {p : Parse} {d : Diagnostic}
    (h : parseWithin limits text = .ok p) (hd : d ∈ p.diagnostics) : d.span.Within text := by
  obtain ⟨-, -, -, -, -, -, -, -, hdiagnostics⟩ := exists_outcome h
  rw [hdiagnostics, List.mem_reverse] at hd
  exact (State.marks_run limits text).reports d hd

/-- The diagnostics about tokens are the flaws of the tokens of the tree, one for each token that
has one. -/
theorem lexicalDiagnostics_eq {limits : Limits} {text : Text} {p : Parse}
    (h : parseWithin limits text = .ok p) :
    ∃ modes, List.Forall₂ (fun t u => Cluster.Renders t (Tree.Token.cluster u))
        ((Place.start text).read modes).1 p.tree.root.significantTokens ∧
      p.lexicalDiagnostics = ((Place.start text).read modes).1.filterMap Token.report? := by
  obtain ⟨modes, hrenders, hreports, hproper⟩ := exists_renders_reports h
  rw [← Tree.Node.map_cluster_significantTokens _ hproper] at hrenders
  exact ⟨modes, List.forall₂_map_right_iff.1 hrenders, hreports⟩

/-- **Where the diagnostics of a parse lie.**  Each marks a stretch of the text from the end of one
character to that of another, so that it has a position.  Those about tokens are the flaws of the
tokens of the tree, one for each token that has one; none of them is empty, and each lies behind
those before it. -/
theorem ranges_of_parseWithin {limits : Limits} {text : Text} {p : Parse}
    (h : parseWithin limits text = .ok p) :
    (∀ d ∈ p.diagnostics, d.span.start ≤ d.span.stop ∧ d.span.stop ≤ text.size ∧
      text.IsBoundary d.span.start ∧ text.IsBoundary d.span.stop ∧
      ∀ (index : LineIndex) path,
        ((⟨path, text⟩ : SourceFile).position? d.span.start index).isSome = true) ∧
    (∃ modes, List.Forall₂ (fun t u => Cluster.Renders t (Tree.Token.cluster u))
        ((Place.start text).read modes).1 p.tree.root.significantTokens ∧
      p.lexicalDiagnostics = ((Place.start text).read modes).1.filterMap Token.report?) ∧
    (∀ d ∈ p.lexicalDiagnostics, d.span.start < d.span.stop) ∧
    p.lexicalDiagnostics.Pairwise fun d e => d.span.start < e.span.start ∧
    d.span.stop ≤ e.span.start := by
  obtain ⟨modes, hrenders, hlexical⟩ := lexicalDiagnostics_eq h
  have hpos : ∀ d ∈ p.lexicalDiagnostics, d.span.start < d.span.stop := fun d hd =>
    (Place.reports_behind modes d (hlexical ▸ hd)).2
  refine ⟨fun d hd => ?_, ⟨modes, hrenders, hlexical⟩, hpos, ?_⟩
  · have hwithin := span_within_of_parseWithin h hd
    exact ⟨hwithin.le, hwithin.stop.le_size, hwithin.start, hwithin.stop,
      fun _ _ => LineIndex.isSome_position? hwithin.start⟩
  · have hpairwise := Place.pairwise_reports (p := .start text) modes
    rw [← hlexical] at hpairwise
    exact hpairwise.imp_of_mem fun hd _ h => ⟨Nat.lt_of_lt_of_le (hpos _ hd) h, h⟩

end

/-- An escape is cut short by a character of two bytes, a string is left open, and a name is
missing. -/
theorem ranges_of_parseWithin_strings :
    ∃ p, parseWithin {} "f(\"\\xé\", 'b\n); var = 1;".toList = .ok p ∧
    (∀ d ∈ p.diagnostics, d.span.start ≤ d.span.stop ∧
      d.span.stop ≤ Text.size "f(\"\\xé\", 'b\n); var = 1;".toList ∧
      Text.IsBoundary "f(\"\\xé\", 'b\n); var = 1;".toList d.span.start ∧
      Text.IsBoundary "f(\"\\xé\", 'b\n); var = 1;".toList d.span.stop ∧
      ∀ (index : LineIndex) path,
        ((⟨path, "f(\"\\xé\", 'b\n); var = 1;".toList⟩ : SourceFile).position? d.span.start
          index).isSome = true) ∧
    (∃ modes, List.Forall₂ (fun t u => Cluster.Renders t (Tree.Token.cluster u))
        ((Place.start "f(\"\\xé\", 'b\n); var = 1;".toList).read modes).1
          p.tree.root.significantTokens ∧
      p.lexicalDiagnostics =
        ((Place.start "f(\"\\xé\", 'b\n); var = 1;".toList).read modes).1.filterMap
        Token.report?) ∧
    (∀ d ∈ p.lexicalDiagnostics, d.span.start < d.span.stop) ∧
    p.lexicalDiagnostics.Pairwise fun d e => d.span.start < e.span.start ∧
    d.span.stop ≤ e.span.start := by
  obtain ⟨p, hp, -⟩ := exists_parseWithin (Limits.endless_maxDepth 256)
    "f(\"\\xé\", 'b\n); var = 1;".toList
  exact ⟨p, hp, ranges_of_parseWithin hp⟩

end ActionScript
