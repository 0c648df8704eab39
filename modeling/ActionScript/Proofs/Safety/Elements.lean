import ActionScript.Grammar.Elements
import ActionScript.Proofs.Safety.Recovery

/-!
# XML elements are safe

Inside tags and between them a token is taken in the mode it was looked at in, so each part needs to
know of the token that it opens with only.
-/

set_option autoImplicit false

namespace ActionScript.Setting

open ActionScript.Parser ActionScript.Grammar

variable [Alphabet] {E : Setting} {s : State}

/-- An interpolation is safe at its brace. -/
theorem safe_interpolation {field : Field} (h : s.HasToken) : E.Safe (interpolation field) s := by
  simp only [interpolation, safe_bind, safe_nodeOf, safe_take, safe_expression, safe_pure,
    safe_label, after_nodeOf, State.endsInNode_close, true_and, and_true]
  exact ⟨h.enter _ _, safe_expectIn (by decide)⟩

theorem moves_interpolation {field : Field} (h : s.token.kind ≠ .eof) :
    s.Moves (E.after (interpolation field) s) :=
  moves_bind_left (moves_nodeOf_take h)

@[simp] theorem safe_tagName : E.Safe tagName s := by
  simp only [tagName, safe_bind, safe_look, val_look, after_look, true_and, glimpse_kind]
  split
  · exact ⟨State.hasToken_of_kind ‹_› (by decide), trivial⟩
  · exact ⟨safe_interpolation (State.hasToken_of_kind ‹_› (by decide)), trivial⟩
  · exact ⟨safe_missing _, trivial⟩

@[simp] theorem safe_tagName? : E.Safe tagName? s := by
  simp [tagName?]

/-- An attribute is safe at its name. -/
theorem safe_tagAttribute (h : s.HasToken) : E.Safe tagAttribute s := by
  simp only [tagAttribute, safe_bind, safe_nodeOf, safe_take, val_expectIn, safe_when, safe_look,
    val_look, after_look, glimpse_kind, safe_label, after_nodeOf, State.endsInNode_close, true_and,
    and_true]
  refine ⟨h.enter _ _, safe_expectIn (by decide), fun _ => ?_⟩
  split
  · exact State.hasToken_of_kind ‹_› (by decide)
  · exact safe_interpolation (State.hasToken_of_kind ‹_› (by decide))
  · exact safe_missing _

theorem moves_tagAttribute (h : s.token.kind ≠ .eof) : s.Moves (E.after tagAttribute s) :=
  moves_bind_left (moves_nodeOf_take h)

/-- In a repetition, a part that opens with the token seen is safe, and moves on with it. -/
theorem runs_seen {p : Parser Unit} {mode : Mode} {kind : Kind}
    (h : (s.place.next mode).1.kind = kind) (hk : kind ≠ .eof)
    (hsafe : (s.inMode mode).HasToken → E.Safe p (s.inMode mode))
    (hmoves : (s.inMode mode).token.kind ≠ .eof →
      (s.inMode mode).Moves (E.after p (s.inMode mode))) :
    E.Runs (do
      p
      return true) (s.inMode mode) fun goesOn t => goesOn = true → s.Moves t := by
  have htoken : (s.inMode mode).token.kind ≠ .eof := by
    subst h
    exact hk
  exact ⟨⟨hsafe fun _ => htoken, trivial⟩, fun _ => hmoves htoken⟩

@[simp] theorem safe_attributes : E.Safe attributes s := by
  refine Safe.loop' fun t => ?_
  rw [runs_bind, runs_look]
  simp only [glimpse_kind]
  split
  · exact runs_seen ‹_› (by decide) safe_tagAttribute moves_tagAttribute
  · exact runs_seen ‹_› (by decide) safe_interpolation moves_interpolation
  · simp

/-- A start tag is safe at its `<`. -/
theorem safe_startTag (h : s.HasToken) : E.Safe startTag s := by
  simp only [startTag, safe_bind, safe_node, safe_take, safe_tagName?, safe_attributes, safe_seesIn,
    val_seesIn, after_seesIn, safe_ite, safe_pure, safe_label, after_node, State.endsInNode_close,
    true_and, and_true, beq_iff_eq]
  refine ⟨h.enter _ _, fun hclosed => ?_, fun _ => safe_expectIn (by decide)⟩
  exact State.hasToken_of_kind hclosed (by decide)

@[simp] theorem safe_content : E.Safe content s := by
  refine Safe.loop' fun t => ?_
  rw [runs_bind, runs_look]
  simp only [glimpse_kind]
  have htake {kind : Kind} (h : (t.place.next .xmlContent).1.kind = kind) (hk : kind ≠ .eof) :
      E.Runs (do
        take (some .content)
        return true) (t.inMode .xmlContent) fun goesOn u => goesOn = true → t.Moves u :=
    runs_seen h hk id fun htoken => State.moves_takeAs _ _ _ htoken
  split
  · exact htake ‹_› (by decide)
  · exact htake ‹_› (by decide)
  · exact htake ‹_› (by decide)
  · exact htake ‹_› (by decide)
  · rename_i h
    refine runs_seen h (by decide) (fun hhas => safe_callIn.2 hhas) fun htoken => ?_
    exact moves_callIn (fun _ => htoken) ⟨htoken, Place.operator_ne_eof_of_content_lt h⟩
  · exact runs_seen ‹_› (by decide) safe_interpolation moves_interpolation
  · simp

@[simp] theorem safe_checkName (opening closing : Option Text) :
    E.Safe (checkName opening closing) s := by
  unfold checkName
  split
  · simp
  · trivial

@[simp] theorem safe_endTag (opening : Option Text) : E.Safe (endTag opening) s := by
  simp only [endTag, safe_bind, safe_seesIn, val_seesIn, after_seesIn, safe_ite, safe_nodeOf,
    safe_take, safe_tagName?, safe_checkName, safe_pure, safe_label, after_nodeOf,
    State.endsInNode_close, safe_report, true_and, and_true, implies_true, beq_iff_eq]
  intro h
  exact ⟨(State.hasToken_of_kind h (by decide)).enter _ _, safe_expectIn (by decide)⟩

/-- An element is safe at its `<`. -/
theorem safe_elementRule (h : s.HasToken) : E.Safe elementRule s := by
  simp only [elementRule, safe_nodeOf, safe_bind, safe_when, safe_content, safe_endTag,
    implies_true, and_true]
  exact safe_startTag (h.enter _ _)

theorem makes_elementRule : s.Makes (E.after elementRule s) := makes_nodeOf _ _

theorem moves_elementRule (h : s.token.kind ≠ .eof) : s.Moves (E.after elementRule s) := by
  refine moves_nodeOf (Place.rest_ne_nil h) fun t hp hm => moves_bind_left (moves_bind_left ?_)
  have ht : t.token.kind ≠ .eof := by rwa [State.token, hp, hm]
  exact moves_node (Place.rest_ne_nil ht) fun u hp' hm' =>
    moves_bind_left (State.moves_takeAs _ _ _ (by rwa [State.token, hp', hm']))

end ActionScript.Setting
