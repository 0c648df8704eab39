import ActionScript.Proofs.Printing.Heads

/-!
# Statements in a row

In a row each statement stands behind what the one in front of it leaves: nothing, or a line break.
A row stands in a block, in a clause of a `switch` or `try`, and makes up the whole text; each time
it is read by a repetition that takes one statement a round.

* `Stmt.TakesAll`: each statement of a row may stand behind the one in front of it.
* `Stmt.opensStatement_shapesAll`: a row opens as its first statement does.
* `Stmt.rounds_shapesAll`: **a row is read again**, one round for each statement.
* `Setting.goes_braced`: **a row in braces is read again.**
-/

set_option autoImplicit false

namespace ActionScript

open ActionScript.Parser ActionScript.Grammar Trivia

namespace Stmt

variable [Alphabet]

/-- Each statement of a row may stand behind the one in front of it, the first one behind `lead`. -/
def TakesAll : List Stmt → List Trivia → Prop
  | [], _ => True
  | s :: ss, lead => s.Takes lead ∧ TakesAll ss (s.leaves gap)

/-- The statements of a row are read again, with so many levels left for each. -/
structure AreLegible (limits : Limits) (n : Nat) (ss : List Stmt) : Prop where
  each : ∀ s ∈ ss, s.IsLegible limits n
  takes : TakesAll ss []

/-! ## What a row leaves -/

theorem leavesAll_of_getLast? {ss : List Stmt} {s : Stmt} (h : s ∈ ss.getLast?)
    (lead tail : List Trivia) : leavesAll ss lead tail = s.leaves tail := by
  obtain ⟨others, rfl⟩ := List.getLast?_eq_some_iff.1 h
  rw [leavesAll, List.foldl_append]
  rfl

theorem leads_leavesAll (ss : List Stmt) : Leads (leavesAll ss [] gap) := by
  cases hlast : ss.getLast? with
  | none =>
    obtain rfl := List.getLast?_eq_none_iff.1 hlast
    exact .inl rfl
  | some s =>
    rw [leavesAll_of_getLast? hlast]
    exact s.leads_leaves

/-! ## A row is read again -/

variable {limits : Limits} {n : Nat} {s : Stmt} {ss : List Stmt} {lead tail : List Trivia}
  {more : Text}

/-- The last statement of a row is followed by what follows the row. -/
theorem followed_of_resumesAll (h : Text.Resumes (leavesAll ss lead gap) more)
    (helse : ¬more.Shows .elseKw) : ∀ s ∈ ss.getLast?, s.Followed gap more := by
  intro s hs
  rw [leavesAll_of_getLast? hs] at h
  exact followed_of_resumes h fun _ => helse

/-- The first statement of a row is followed by the others, or by what follows the row. -/
theorem followed_first
    (hothers : ss ≠ [] → Text.OpensStatement (s.leaves gap)
      (Shape.sourceAll (shapesAll ss (s.leaves gap) tail) ++ more))
    (hlast : ∀ t ∈ (s :: ss).getLast?, t.Followed tail more) :
    s.Followed (if ss.isEmpty then tail else gap)
      (Shape.sourceAll (shapesAll ss (s.leaves gap) tail) ++ more) := by
  cases ss with
  | nil => exact hlast s rfl
  | cons t ts =>
    have hopens := hothers (List.cons_ne_nil t ts)
    exact followed_of_resumes hopens.toResumes fun _ => hopens.words _ (by decide)

theorem forall_getLast?_cons {p : Stmt → Prop} (h : ∀ t ∈ (s :: ss).getLast?, p t) :
    ∀ t ∈ ss.getLast?, p t := by
  cases ss with
  | nil => exact fun t ht => absurd ht (by simp)
  | cons u us => exact fun t ht => h t (by rwa [List.getLast?_cons_cons])

/-- A row opens as its first statement does. -/
theorem opensStatement_shapesAll (hss : ∀ s ∈ ss, s.IsLegible limits n) (htakes : TakesAll ss lead)
    (hlast : ∀ s ∈ ss.getLast?, s.Followed tail more) (hne : ss ≠ []) :
    Text.OpensStatement lead (Shape.sourceAll (shapesAll ss lead tail) ++ more) := by
  induction ss generalizing lead with
  | nil => exact absurd rfl hne
  | cons s ss ih =>
    obtain ⟨hs, hothers⟩ := List.forall_mem_cons.1 hss
    have hfollowed := followed_first (ih hothers htakes.2 (forall_getLast?_cons hlast)) hlast
    rw [shapesAll, Shape.sourceAll, List.append_assoc]
    exact hs.opens lead htakes.1 _ _ hfollowed

/-- **A row of statements is read again**, by a repetition that takes one of them a round and may
put it into a slot. -/
theorem rounds_shapesAll {E : Setting} {body : Parser Bool} {f : Shape → Shape}
    (hss : ∀ s ∈ ss, s.IsLegible limits n) (htakes : TakesAll ss lead)
    (hlast : ∀ s ∈ ss.getLast?, s.Followed tail more)
    (hstep : ∀ s : Stmt, s.IsLegible limits n → ∀ lead, s.Takes lead → ∀ tail more,
      s.Followed tail more →
      ∀ made, E.Goes body ⟨(s.shape lead tail).source ++ more, .operator, made⟩ true
        ⟨more, .operator, f (s.shape lead tail) :: made⟩)
    {made : List Shape} {d : Spot}
    (hstop : E.Rounds body ⟨more, .operator, ((shapesAll ss lead tail).map f).reverse ++ made⟩ d) :
    E.Rounds body ⟨Shape.sourceAll (shapesAll ss lead tail) ++ more, .operator, made⟩ d := by
  induction ss generalizing lead made with
  | nil => exact hstop
  | cons s ss ih =>
    obtain ⟨hs, hothers⟩ := List.forall_mem_cons.1 hss
    have hend := forall_getLast?_cons hlast
    have hfollowed := followed_first (opensStatement_shapesAll hothers htakes.2 hend) hlast
    rw [shapesAll, Shape.sourceAll, List.append_assoc]
    refine .more (hstep s hs lead htakes.1 _ _ hfollowed made) (ih hothers htakes.2 hend ?_)
    simpa [shapesAll] using hstop

/-- In front of a row in braces nothing is trivia. -/
theorem settled_shapesAll (h : AreLegible limits n ss)
    (hmore : Text.Resumes (leavesAll ss [] gap) more) (helse : ¬more.Shows .elseKw) :
    Text.Settled (Shape.sourceAll (shapesAll ss [] gap) ++ more) := by
  by_cases hne : ss = []
  · subst hne
    exact hmore.settled
  · exact (opensStatement_shapesAll h.each h.takes (followed_of_resumesAll hmore helse) hne).settled

end Stmt

/-! ## Rows in braces -/

theorem Text.not_shows_of_ahead [Alphabet] {cs : Text} (h : cs.ahead ≠ .name) (k : Kind) :
    ¬cs.Shows k :=
  fun hshows => h hshows.1

/-- What opens a statement is neither a closing brace nor the end of the text. -/
theorem Text.OpensStatement.ahead_ne [Alphabet] {lead : List Trivia} {cs : Text}
    (h : cs.OpensStatement lead) :
    ∀ k ∈ [Kind.rCurly, .eof], cs.ahead ≠ k := by
  have hnot : ∀ k ∈ [Kind.rCurly, .eof], statementFirst.contains k = false := by decide
  intro k hk heq
  have hfirst := h.first
  rw [heq, hnot k hk] at hfirst
  cases hfirst

theorem Shape.source_braces_append (kind : Kind) (inner : List Shape)
    (lead close tail : List Trivia)
    (more : Text) : (Shape.braces kind inner lead close tail).source ++ more =
      (Shape.word .lCurly lead gap).source ++ (Shape.sourceAll inner ++
        ((Shape.word .rCurly close tail).source ++ more)) := by
  simp [Shape.braces, Shape.source, Shape.sourceAll, Shape.sourceAll_append]

theorem Shape.solid_braces (kind : Kind) (inner : List Shape) (close tail : List Trivia)
    (more : Text) : Text.Solid ((Shape.braces kind inner [] close tail).source ++ more) := by
  rw [source_braces_append]
  exact solid_cons (by decide) (by decide) (by decide) _

namespace Setting

variable {limits : Limits} {n depth : Nat} {lead close tail : List Trivia} {more : Text}
  (hl : limits.Endless)
include hl

variable [Alphabet]

/-- What is read between braces is read with them. -/
theorem goes_braces {inner : List Shape} {p : Parser Unit} (hlead : Leads lead)
    (hclose : Leads close) (hmore : Text.Behind tail more)
    (hinner : Text.Settled
      (Shape.sourceAll inner ++ ((Shape.word .rCurly close tail).source ++ more)))
    (hp : ∀ made, (atDepth limits depth).Goes p
      ⟨Shape.sourceAll inner ++ ((Shape.word .rCurly close tail).source ++ more),
        .operator, made⟩ ()
      ⟨(Shape.word .rCurly close tail).source ++ more, .operator, inner.reverse ++ made⟩)
    (kind : Kind) (made : List Shape) :
    (atDepth limits depth).Goes
      (nodeOf kind do
        take none
        p
        expect .rCurly)
      ⟨(Shape.braces kind inner lead close tail).source ++ more, .operator, made⟩ ()
      ⟨more, .operator, Shape.braces kind inner lead close tail :: made⟩ := by
  have hopen := Mode.reads_lCurly (.inl rfl) hlead hinner
  have hend := Mode.reads_closing (.inl rfl) (k := .rCurly) (by decide) hclose hmore
  have hkids : (Shape.word .lCurly lead gap :: inner ++ [Shape.word .rCurly close tail]).reverse =
      Shape.word .rCurly close tail :: (inner.reverse ++ [Shape.word .lCurly lead gap]) := by
    simp
  rw [Shape.source_braces_append]
  refine goes_nodeOf hl ?_
  rw [hkids]
  exact (goes_take hl hopen none).bind ((hp _).bind (goes_expect hl hend))

omit hl in
/-- A row is read up to the brace that closes it. -/
theorem goes_statements {ss : List Stmt} (hss : Stmt.AreLegible limits n ss)
    (hdepth : n + 1 ≤ depth)
    (hresumes : Text.Resumes (Stmt.leavesAll ss [] gap) more) (hcurly : more.ahead = .rCurly)
    (made : List Shape) :
    (atDepth limits depth).Goes statements
      ⟨Shape.sourceAll (Stmt.shapesAll ss [] gap) ++ more, .operator, made⟩ ()
      ⟨more, .operator, (Stmt.shapesAll ss [] gap).reverse ++ made⟩ := by
  obtain ⟨below, rfl⟩ : ∃ below, depth = below + 1 := ⟨depth - 1, by omega⟩
  have hlast :=
    Stmt.followed_of_resumesAll hresumes (Text.not_shows_of_ahead (by rw [hcurly]; decide) _)
  refine goes_loop (Stmt.rounds_shapesAll (f := id) hss.each hss.takes hlast ?_ (.last ?_))
  · intro s hs lead hlead tail more hnext made
    have hne := (hs.opens lead hlead tail more hnext).ahead_ne
    have hstatement := goes_call .statement <|
      hs.goes below (by omega) lead hlead tail more hnext .operator made
    refine (goes_peek _ _ _).bind (.of_neg ?_ (hstatement.bind (goes_pure _ _)))
    simp [hne]
  · rw [List.map_id]
    exact (goes_peek _ _ _).bind (.of_pos (by rw [hcurly]; rfl) (goes_pure _ _))

/-- **A row in braces is read again.** -/
theorem goes_braced {ss : List Stmt} (hss : Stmt.AreLegible limits n ss)
    (hdepth : n + 1 ≤ depth) (hlead : Leads lead) (hmore : Text.Behind tail more) (kind : Kind)
    (mode : Mode) (made : List Shape) :
    (atDepth limits depth).Goes (braced kind)
      ⟨(Shape.braces kind (Stmt.shapesAll ss [] gap) lead (Stmt.leavesAll ss [] gap)
        tail).source ++ more, mode, made⟩ ()
      ⟨more, .operator,
        Shape.braces kind (Stmt.shapesAll ss [] gap) lead (Stmt.leavesAll ss [] gap) tail ::
          made⟩ := by
  have hclose := Stmt.leads_leavesAll ss
  have hcurly := (Mode.reads_closing (.inl rfl) (k := .rCurly) (by decide) hclose hmore).ahead
  have hresumes := Text.resumes_rCurly hclose hmore
  have hsettled := Stmt.settled_shapesAll hss hresumes
    (Text.not_shows_of_ahead (by rw [hcurly]; decide) _)
  have hopen : Text.ahead ((Shape.braces kind (Stmt.shapesAll ss [] gap) lead
      (Stmt.leavesAll ss [] gap) tail).source ++ more) = .lCurly := by
    rw [Shape.source_braces_append]
    exact (Mode.reads_lCurly (.inl rfl) hlead hsettled).ahead
  refine (goes_sees _ _ _ _).bind (.of_pos (by simp [hopen]) ?_)
  exact goes_braces hl hlead hclose hmore hsettled
    (goes_statements hss hdepth hresumes hcurly) kind made

end Setting

end ActionScript
