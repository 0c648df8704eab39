import ActionScript.Proofs.Depth
import ActionScript.Proofs.Explained
import ActionScript.Proofs.ForHeads.Trees
import ActionScript.Proofs.Markup.Gaps
import ActionScript.Proofs.Markup.Tags

/-!
# How interpolations are closed

The brace that closes an interpolation is read as in a tag, where comments are none, but the trivia
behind the last token of the expression goes to that token up to the end of the line.  So trivia in
front of the brace does no harm, unless a comment is left for the brace; then the brace is missed.

* `Shape.ClosedBy`: what closes an interpolation in front of a text.
* `Shape.Interpolated`: an interpolation is closed behind its last token.
* `Setting.lays_interpolation`, `Setting.interpolates_atDepth`: **all of them are so**, at every
  depth.
* `Place.next_gathers`, `Shape.ClosedBy.of_gathers`: which trivia is left for the brace, and what it
  does.
* `interpolations_closed`: **interpolations close behind trivia that leaves no comment for the
  brace**, and else the parse reports it.
-/

set_option autoImplicit false

namespace ActionScript

open ActionScript.Parser ActionScript.Grammar

/-! ## The closing brace -/

/-- What closes an interpolation in front of `r`, and what is left behind it: a brace with the white
space in front of it, or an error node in its stead. -/
inductive Shape.ClosedBy (r : Text) : Shape → Text → Prop where
  | brace {more : Text} : (Trivia.leadingRun false r).rest = '}' :: more →
      ClosedBy r (.token .rCurly none (Trivia.leadingRun false r).pieces ['}'] []) more
  | missing :
      (Trivia.leadingRun false r).rest.head? ≠ some '}' → ClosedBy r (.node .error none []) r

/-- The last of some shapes that is a token was read in such a mode, at such a place. -/
def Shape.EndsAt [Alphabet] (ss : List Shape) (q : Place) (mode : Mode) : Prop :=
  ∃ front last, Shape.tokensAll ss = front ++ [last] ∧ Shape.Keeps (q.next mode).1 last ∧
    (q.next mode).1.kind ≠ .eof

/-- An interpolation is closed behind its last token. -/
def Shape.Interpolated [Alphabet] (kind : Kind) (children : List Shape) (rest : Text) : Prop :=
  kind = .xmlExpr → ∃ kids last q mode, children = kids ++ [last] ∧ Shape.EndsAt kids q mode ∧
    Shape.ClosedBy (q.next mode).2.rest last rest

/-- The last token so far was read where the state is now. -/
def State.Behind [Alphabet] (s : State) : Prop :=
  ∃ q mode, Shape.EndsAt s.children.reverse q mode ∧ s.place = (q.next mode).2

theorem State.Reads.behind [Alphabet] {s t : State} (h : s.Reads t) (hs : s.Behind) : t.Behind := by
  obtain ⟨modes, taken, hplace, htokens, hkeeps, hne, -⟩ := h
  rcases modes.eq_nil_or_concat with rfl | ⟨modes, mode, rfl⟩
  · obtain ⟨q, mode, ⟨front, last, hlast, hread⟩, hat⟩ := hs
    cases hkeeps
    exact ⟨q, mode, ⟨front, last, by rw [htokens, List.append_nil, hlast], hread⟩, hplace.trans hat⟩
  · rw [List.concat_eq_append, Place.read_append] at hplace hkeeps hne
    rw [← List.forall₂_reverse_iff] at hkeeps
    simp only [Place.read_cons, Place.read_nil, List.reverse_append, List.reverse_singleton,
      List.singleton_append] at hplace hkeeps hne
    obtain ⟨last, front, hread, -, htaken⟩ := List.forall₂_cons_left_iff.1 hkeeps
    refine ⟨_, mode,
      ⟨Shape.tokensAll s.children.reverse ++ front.reverse, last, ?_, hread,
        hne _ (by simp)⟩, hplace⟩
    rw [htokens, ← List.reverse_reverse taken, htaken, List.reverse_cons, List.append_assoc]

/-- What a tag goes on with, if that is a closing brace. -/
theorem Place.next_tag_rCurly [Alphabet] (p : Place) :
    ((p.next .xmlTag).1.kind = .rCurly ↔ (Trivia.leadingRun false p.rest).rest.head? = some '}') ∧
    ∀ more, (Trivia.leadingRun false p.rest).rest = '}' :: more →
      (p.next .xmlTag).1.leading = (Trivia.leadingRun false p.rest).pieces ∧
        (p.next .xmlTag).1.text = ['}'] ∧ (p.next .xmlTag).1.trailing = [] ∧
        (p.next .xmlTag).2.rest = more := by
  have hread : Lexeme.read .xmlTag (Mode.xmlTag.leading p.rest).rest =
      Markup.tag (Trivia.leadingRun false p.rest).rest := rfl
  have hlexeme (more : Text) (h : (Trivia.leadingRun false p.rest).rest = '}' :: more) :
      Lexeme.read .xmlTag (Mode.xmlTag.leading p.rest).rest = ⟨.rCurly, ['}'], more, none⟩ := by
    rw [hread, h]
    rfl
  refine ⟨⟨fun h => ?_, fun h => ?_⟩, fun more h => ⟨rfl, ?_, rfl, ?_⟩⟩
  · have htext := next_text_of_kind h rfl
    have happend := Lexeme.read_append .xmlTag (Mode.xmlTag.leading p.rest).rest
    have hcut : (Lexeme.read .xmlTag (Mode.xmlTag.leading p.rest).rest).text = ['}'] := htext
    rw [hcut] at happend
    exact congrArg List.head? happend.symm
  · obtain ⟨more, hmore⟩ := List.head?_eq_some_iff.1 h
    exact congrArg Lexeme.kind (hlexeme more hmore)
  · exact congrArg Lexeme.text (hlexeme more h)
  · exact congrArg Lexeme.rest (hlexeme more h)

namespace Setting

variable [Alphabet] {E : Setting} {s : State}

theorem closedBy_expectIn (h : (E.after (expectIn .xmlTag .rCurly) s).aborted = none) :
    ∃ last, (E.after (expectIn .xmlTag .rCurly) s).children = last :: s.children ∧
      Shape.ClosedBy s.place.rest last (E.after (expectIn .xmlTag .rCurly) s).place.rest := by
  simp only [expectIn, after_bind, val_seesIn, after_seesIn, after_ite, after_pure] at h ⊢
  obtain ⟨hkind, htoken⟩ := s.place.next_tag_rCurly
  by_cases hbrace : (Trivia.leadingRun false s.place.rest).rest.head? = some '}'
  · obtain ⟨more, hmore⟩ := List.head?_eq_some_iff.1 hbrace
    rw [if_pos (by simpa using hkind.2 hbrace)] at h ⊢
    obtain ⟨-, hplace, -⟩ := State.takes_takeAs _ _ _ _ h
    obtain ⟨hleading, htext, htrailing, hrest⟩ := htoken more hmore
    refine ⟨_, State.takeAs_children .., ?_⟩
    rw [after_take, hplace]
    have htag : ((s.inMode .xmlTag).place.next (s.inMode .xmlTag).mode) = s.place.next .xmlTag :=
      rfl
    rw [State.inMode_token, htag, hrest, hkind.2 hbrace, hleading, htext, htrailing]
    exact .brace hmore
  · rw [if_neg (by simpa using mt hkind.1 hbrace)] at h ⊢
    have hplace : (E.after (missing (.expected .rCurly)) (s.inMode .xmlTag)).place = s.place := by
      rw [missing, after_bind, after_nodeOf, after_pure, after_report] at h ⊢
      rcases ((s.inMode .xmlTag).report (.expected .rCurly)).enter_cases E.limits [] with
        ⟨hp, -, -⟩ | ⟨hna, -⟩
      · rw [State.close_place, hp, State.report_place]
        rfl
      · exact absurd h hna
    refine ⟨.node .error none [], ?_, ?_⟩
    · simp [missing, after_bind, after_nodeOf, after_report, after_pure]
    · rw [hplace]
      exact .missing hbrace

/-- What an interpolation holds. -/
def inside : Parser Unit := do
  take none
  expression .expression
  let _ ← expectIn .xmlTag .rCurly

omit [Alphabet] in
theorem interpolation_eq (field : Field) :
    interpolation field = nodeOf .xmlExpr inside >>= fun _ => label field := rfl

instance : Kind.Special [.xmlExpr] := ⟨by decide⟩

namespace Interpolations

theorem interpolated_of_not_mem (kind : Kind) (children : List Shape) (rest : Text)
    (h : kind ∉ [Kind.xmlExpr]) : Shape.Interpolated kind children rest := by
  rintro rfl
  exact absurd List.mem_cons_self h

/-- Parsers that make no interpolation keep what is known of them. -/
theorem lays_interpolated (hE : E.Lays Shape.Interpolated) {α : Type} {p : Parser α}
    (hp : p.Avoids [.xmlExpr] True True) : s.Lays Shape.Interpolated (E.after p s) :=
  lays_of_avoids interpolated_of_not_mem hE hp

theorem lays_bind {α β : Type} {p : Parser β} {f : β → Parser α}
    (hp : s.Lays Shape.Interpolated (E.after p s))
    (hf : (E.after p s).Lays Shape.Interpolated (E.after (f (E.val p s)) (E.after p s))) :
    s.Lays Shape.Interpolated (E.after (p >>= f) s) := by
  rw [after_bind]
  exact hp.trans hf

theorem lays_pure {α : Type} (a : α) : s.Lays Shape.Interpolated (E.after (pure a) s) :=
  .of_eq rfl rfl rfl

theorem lays_take (field : Option Field) : s.Lays Shape.Interpolated (E.after (take field) s) :=
  .takeAs _ _ _ _

theorem lays_label (field : Field) : s.Lays Shape.Interpolated (E.after (label field) s) :=
  .labelLast _ _

/-- A node of another kind. -/
theorem lays_nodeOf {kind : Kind} (hkind : kind ≠ .xmlExpr) {body : Parser Unit}
    (h : (s.enter E.limits []).Lays Shape.Interpolated (E.after body (s.enter E.limits []))) :
    s.Lays Shape.Interpolated (E.after (nodeOf kind body) s) :=
  lays_node (lays_bind h (.of_eq rfl rfl rfl)) fun _ hexpr => absurd hexpr hkind

theorem lays_when {c : Bool} {p : Parser Unit}
    (h : s.Lays Shape.Interpolated (E.after p s)) :
    s.Lays Shape.Interpolated (E.after (when c p) s) := by
  rw [after_when]
  split
  · exact h
  · exact .of_eq rfl rfl rfl

/-- Behind a look at what comes next. -/
theorem lays_look {α : Type} {mode : Mode} {f : Glimpse → Parser α}
    (h : (s.inMode mode).Lays Shape.Interpolated
      (E.after (f (State.glimpse (s.place.next mode).1)) (s.inMode mode))) :
    s.Lays Shape.Interpolated (E.after (look mode >>= f) s) :=
  lays_bind (.of_eq rfl rfl rfl) h

section
variable (hE : E.Lays Shape.Interpolated)
  (hconsumes : ∀ (rule : Rule) (s : State), rule.Ready s → s.Consumes (E.apply rule s))

include hconsumes

/-- Behind the expression, the last token that was read is the last one there is. -/
theorem behind_expression (h : s.HasToken) (hs : s.children = [])
    (ha : (E.after (expression .expression) (E.after (take none) s)).aborted = none) :
    (E.after (expression .expression) (E.after (take none) s)).Behind := by
  have hmore :
      (E.after (take none) s).Consumes (E.after (expression .expression) (E.after (take none) s)) :=
    consumes_after hconsumes (safe_expression _)
  obtain ⟨hbefore, hplace, -⟩ := State.takes_takeAs s E.limits s.token.kind none (hmore.aborted ha)
  refine (hmore.reads ha).behind ⟨s.place, s.mode, ⟨[], .token s.token.kind none
    s.token.leading s.token.text s.token.trailing, ?_, ?_, h hbefore⟩, hplace⟩
  · rw [after_take, State.takeAs_children, hs]
    rfl
  · exact ⟨rfl, rfl, rfl, .inl rfl⟩

include hE

/-- **An interpolation is closed behind its last token**, or an error node tells that it is not. -/
theorem lays_interpolation {field : Field} (h : s.HasToken) :
    s.Lays Shape.Interpolated (E.after (interpolation field) s) := by
  have havoids : inside.Avoids [.xmlExpr] True True := by simp [inside]
  have hnode :
      (s.enter E.limits []).Lays Shape.Interpolated (E.after inside (s.enter E.limits [])) :=
    lays_of_avoids interpolated_of_not_mem hE havoids
  rw [interpolation_eq]
  refine lays_bind (lays_node hnode fun ha _ => ?_) (lays_label _)
  rw [after_bind, after_pure, inside, after_bind, after_bind, after_bind, after_pure] at ha ⊢
  obtain ⟨last, hchildren, hclosed⟩ := closedBy_expectIn ha
  have hbefore := (E.leads_after (expectIn .xmlTag .rCurly) _).aborted ha
  obtain ⟨q, mode, hends, hplace⟩ := behind_expression hconsumes (h.enter E.limits []) rfl hbefore
  rw [hplace] at hclosed
  exact ⟨_, last, q, mode, by rw [hchildren, List.reverse_cons], hends, hclosed⟩

/-- Behind a look at the opening brace. -/
theorem lays_seen {field : Field} {mode : Mode}
    (hkind : (State.glimpse (s.place.next mode).1).kind = .lCurly) :
    (s.inMode mode).Lays Shape.Interpolated (E.after (interpolation field) (s.inMode mode)) :=
  lays_interpolation hE hconsumes (State.hasToken_of_kind hkind (by decide))

theorem lays_tagName : s.Lays Shape.Interpolated (E.after tagName s) := by
  refine lays_look ?_
  split
  · exact lays_interpolated hE (by simp)
  · exact lays_bind (lays_seen hE hconsumes ‹_›) (lays_pure _)
  · exact lays_interpolated hE (by simp)

theorem lays_tagName? : s.Lays Shape.Interpolated (E.after tagName? s) := by
  refine lays_bind (.of_eq rfl rfl rfl) ?_
  split
  · exact lays_pure _
  · exact lays_tagName hE hconsumes

theorem lays_tagAttribute : s.Lays Shape.Interpolated (E.after tagAttribute s) := by
  refine lays_bind (lays_nodeOf (by decide) ?_) (lays_label _)
  refine lays_bind (lays_take _)
    (lays_bind (lays_interpolated hE (by simp)) (lays_when (lays_look ?_)))
  split
  · exact lays_take _
  · exact lays_seen hE hconsumes ‹_›
  · exact lays_interpolated hE (by simp)

theorem lays_attributes : s.Lays Shape.Interpolated (E.after attributes s) := by
  refine after_loop_induct (fun t => s.Lays Shape.Interpolated t) (.of_eq rfl rfl rfl)
    (fun t stalled h => h.trans (.of_eq rfl rfl rfl)) fun t h => h.trans (lays_look ?_)
  split
  · exact lays_bind (lays_tagAttribute hE hconsumes) (lays_pure _)
  · exact lays_bind (lays_seen hE hconsumes ‹_›) (lays_pure _)
  · exact lays_pure _

theorem lays_startTag : s.Lays Shape.Interpolated (E.after startTag s) := by
  rw [startTag_eq]
  refine lays_bind (lays_node ?_ fun _ => ?_) (lays_interpolated hE (by simp))
  · refine lays_bind (lays_take _) (lays_bind (lays_tagName? hE hconsumes)
      (lays_bind (lays_attributes hE hconsumes) (lays_interpolated hE ?_)))
    simp
  · rw [val_bind, yields_tagRest.val E _]
    exact interpolated_of_not_mem _ _ _ (by decide)

theorem lays_content : s.Lays Shape.Interpolated (E.after content s) := by
  refine after_loop_induct (fun t => s.Lays Shape.Interpolated t) (.of_eq rfl rfl rfl)
    (fun t stalled h => h.trans (.of_eq rfl rfl rfl)) fun t h => h.trans (lays_look ?_)
  split
  case h_6 =>
    exact lays_bind (lays_seen hE hconsumes ‹_›) (lays_pure _)
  all_goals exact lays_interpolated hE (by simp)

theorem lays_endTag (opening : Option Text) :
    s.Lays Shape.Interpolated (E.after (endTag opening) s) := by
  refine lays_bind (.of_eq rfl rfl rfl) ?_
  split
  · refine lays_bind (lays_nodeOf (by decide) ?_) (lays_label _)
    exact lays_bind (lays_take _)
      (lays_bind (lays_tagName? hE hconsumes) (lays_interpolated hE (by simp)))
  · exact lays_interpolated hE (by simp)

theorem lays_elementRule : s.Lays Shape.Interpolated (E.after elementRule s) := by
  refine lays_nodeOf (by decide) (lays_bind (lays_startTag hE hconsumes) (lays_when ?_))
  exact lays_bind (lays_content hE hconsumes) (lays_endTag hE hconsumes _)

end

theorem lays_wordStatement (hE : E.Lays Shape.Interpolated) (g : Glimpse) :
    s.Lays Shape.Interpolated (E.after (wordStatement g) s) := by
  unfold wordStatement
  split
  all_goals exact lays_interpolated hE (by simp +decide)

theorem lays_statementRule (hE : E.Lays Shape.Interpolated) :
    s.Lays Shape.Interpolated (E.after statementRule s) := by
  refine lays_bind (.of_eq rfl rfl rfl) ?_
  split
  case h_4 => exact lays_wordStatement hE _
  all_goals exact lays_interpolated hE (by simp +decide)

end Interpolations

/-- **Interpolations are closed behind their last token**, at every depth. -/
theorem interpolates_atDepth (limits : Limits) (depth : Nat) :
    (atDepth limits depth).Lays Shape.Interpolated := by
  induction depth with
  | zero => exact lays_zero Interpolations.interpolated_of_not_mem limits
  | succ depth ih =>
    intro rule s
    rw [atDepth_succ]
    cases rule with
    | statement => exact Interpolations.lays_statementRule ih
    | expression min r => exact Interpolations.lays_interpolated ih (avoids_expressionRule min r)
    | unary =>
      exact Interpolations.lays_interpolated ih
        (avoids_unaryRule (by decide) (by decide) (by decide) trivial)
    | construction =>
      exact Interpolations.lays_interpolated ih
        (avoids_constructionRule (by decide) (by decide) (by decide) trivial)
    | type => exact Interpolations.lays_interpolated ih avoids_typeRule
    | element => exact Interpolations.lays_elementRule ih (consumes_atDepth limits depth)

end Setting

/-- The interpolations of a parse are closed behind their last token. -/
theorem State.interpolated_run [Alphabet] (limits : Limits) (text : Text) :
    (State.start text).Lays Shape.Interpolated (State.run limits text) :=
  Setting.Interpolations.lays_interpolated (E := Setting.atDepth limits limits.maxDepth)
    (Setting.interpolates_atDepth limits _) (p := sourceFile) (by simp +decide [sourceFile])

/-! ## Every interpolation -/

theorem Shape.ClosedBy.append {r rest : Text} {last : Shape} (h : ClosedBy r last rest) :
    last.source ++ rest = r := by
  cases h with
  | brace hmore =>
    have happend :
        Trivia.flatten (Trivia.leadingRun false r).pieces ++ (Trivia.leadingRun false r).rest = r :=
      Trivia.run_append Trivia.leading?_append _ _ r
    rw [hmore] at happend
    simpa [Shape.source, Trivia.flatten] using happend
  | missing h => simp [Shape.source, sourceAll]

/-- The pieces that are left behind a token which was read in such a mode. -/
def Mode.leave (mode : Mode) (gap : List Trivia) : List Trivia :=
  if mode.isCode then gap.dropWhile fun t => !t.breaksLine else gap

/-- **The trivia behind a token** belong to it up to the end of the line, in code; in markup none
do. -/
theorem Place.next_gathers [Alphabet] {q : Place} {mode : Mode}
    (hkind : (q.next mode).1.kind ≠ .eof)
    {gap : List Trivia} {more : Text}
    (h : Trivia.leadingRun true (Trivia.flatten (q.next mode).1.trailing ++ (q.next mode).2.rest) =
      ⟨gap, more, none⟩) :
    gap = (q.next mode).1.trailing ++ mode.leave gap ∧
      Trivia.Gathers (Trivia.leading? true) (q.next mode).2.rest (mode.leave gap) more := by
  have hbehind : Trivia.flatten (q.next mode).1.trailing ++ (q.next mode).2.rest =
      (Lexeme.read mode (mode.leading q.rest).rest).rest := Mode.trailing_append ..
  rw [hbehind] at h
  have hgathers := Trivia.gathers_of_run (Trivia.shortens_leading? true) 0 (Nat.le_refl _) h
  by_cases hcode : mode.isCode = true
  · obtain ⟨left, htaken, hleft⟩ := hgathers.trailing
    have hrun :
        mode.trailing (q.next mode).1.kind (Lexeme.read mode (mode.leading q.rest).rest).rest =
        ⟨gap.takeWhile fun t => !t.breaksLine, left, none⟩ := by
      rw [Mode.trailing, if_pos (by simp [hcode, hkind])]
      exact htaken.run_eq Trivia.shortens_trailing? 0 (Nat.le_refl _)
    have htrailing : (q.next mode).1.trailing = gap.takeWhile fun t => !t.breaksLine :=
      congrArg Trivia.Run.pieces hrun
    have hrest : (q.next mode).2.rest = left := congrArg Trivia.Run.rest hrun
    rw [Mode.leave, if_pos hcode, htrailing, hrest, List.takeWhile_append_dropWhile]
    exact ⟨rfl, hleft⟩
  · have hrun :
        mode.trailing (q.next mode).1.kind (Lexeme.read mode (mode.leading q.rest).rest).rest =
        ⟨[], (Lexeme.read mode (mode.leading q.rest).rest).rest, none⟩ := by
      rw [Mode.trailing, if_neg (by simp [hcode])]
    have htrailing : (q.next mode).1.trailing = [] := congrArg Trivia.Run.pieces hrun
    have hrest : (q.next mode).2.rest = _ := congrArg Trivia.Run.rest hrun
    rw [Mode.leave, if_neg hcode, htrailing, hrest]
    exact ⟨rfl, hgathers⟩

/-- **The brace is found if no comment is left for it.** -/
theorem Shape.ClosedBy.of_gathers {r rest more : Text} {last : Shape} (h : ClosedBy r last rest)
    {left : List Trivia} (hleft : Trivia.Gathers (Trivia.leading? true) r left ('}' :: more)) :
    (∀ t ∈ left, t.isComment = false) ∧ last = .token .rCurly none left ['}'] [] ∧ rest = more ∨
      (∃ t ∈ left, t.isComment = true) ∧ last = .node .error none [] ∧ rest = r := by
  have hread {us : List Trivia} {ds : Text} (h : Trivia.Gathers (Trivia.leading? false) r us ds) :
      Trivia.leadingRun false r = ⟨us, ds, none⟩ :=
    h.run_eq (Trivia.shortens_leading? false) 0 (Nat.le_refl _)
  rcases hleft.markup with ⟨hplain, hmarkup⟩ | ⟨hcomment, us, ds, hmarkup⟩
  · have hrun := hread hmarkup
    cases h with
    | brace hmore =>
      rw [hrun] at hmore ⊢
      exact .inl ⟨hplain, rfl, (List.cons.inj hmore).2.symm⟩
    | missing hnot =>
      rw [hrun] at hnot
      exact absurd rfl hnot
  · have hrun := hread hmarkup
    cases h with
    | brace hmore =>
      rw [hrun] at hmore
      cases hmore
    | missing hnot => exact .inr ⟨hcomment, rfl, rfl⟩

/-- A tree with an error node comes with a diagnostic. -/
theorem Tree.diagnostics_ne_nil [Alphabet] {limits : Limits} {text : Text} {p : Parse}
    (h : parseWithin limits text = .ok p) {n : Tree.Node} (hn : n ∈ p.tree.root.descendants)
    (hkind : n.kind = .error) : p.diagnostics ≠ [] := by
  have ha := aborted_of_parseWithin h
  obtain ⟨modes, kids, last, hout⟩ := State.run_outcome ha
  obtain ⟨-, herrors, -⟩ := State.accounts_run ha
  rw [hout.parseWithin_eq ha, Except.ok.injEq] at h
  subst h
  generalize hroot : (⟨.sourceFile, none, (kids ++
    [Shape.token .eof none last.leading last.text last.trailing]).reverse⟩ : Stem) = root at hn
  have hchildren : (State.run limits text).children = [root.shape] := by
    rw [hout.children, ← hroot, Stem.shape, List.reverse_reverse]
  have hmem : n ∈ (Tree.ofStem text root).errorNodes := List.mem_filter.2 ⟨hn, by simp [hkind]⟩
  have hpos := List.length_pos_of_mem hmem
  rw [Tree.length_errorNodes_ofStem, ← hchildren] at hpos
  have hreports : 0 < (State.run limits text).reports.length :=
    Nat.lt_of_lt_of_le hpos (by simpa [State.start] using herrors)
  simpa using List.ne_nil_of_length_pos hreports

/-- **Interpolations close behind trivia that leaves no comment for the brace.**  Where a node of
one begins, its text goes on with `body`, up to the end of the last token in front of what closes
it.  If trivia and a closing brace stand `behind` that, the token takes in the trivia up to the end
of its line, or none if it is a token of markup.  If no comment is among the rest, the brace closes
the node, with the rest in front of it and nothing behind it; and else an error node stands in its
stead, and the parse reports something. -/
theorem interpolations_closed [Alphabet] {limits : Limits} {text : Text} {p : Parse}
    (h : parseWithin limits text = .ok p) {n : Tree.Node} (hn : n ∈ p.tree.root.descendants)
    (hkind : n.kind = .xmlExpr) :
    ∃ (front body behind rest : Text) (start : Progress) (kids : List Shape)
    (last : Shape) (q : Place)
      (mode : Mode),
      text = front ++ (body ++ behind) ∧ start.offset = front.size ∧
      n.children = (start.layAll (kids ++ [last])).1 ∧ Shape.EndsAt kids q mode ∧
      Shape.sourceAll kids = body ++ Trivia.flatten (q.next mode).1.trailing ∧
      behind = Trivia.flatten (q.next mode).1.trailing ++ (last.source ++ rest) ∧
      ∀ (gap : List Trivia) (more : Text),
        Trivia.leadingRun true behind = ⟨gap, '}' :: more, none⟩ →
        gap = (q.next mode).1.trailing ++ mode.leave gap ∧
        ((∀ t ∈ mode.leave gap, t.isComment = false) ∧
            last = .token .rCurly none (mode.leave gap) ['}'] [] ∧ rest = more ∨
          (∃ t ∈ mode.leave gap, t.isComment = true) ∧ last = .node .error none [] ∧
            p.diagnostics ≠ []) := by
  obtain ⟨front, rest, start, ss, htext, hoffset, hchildren, hinterpolated⟩ :=
    Tree.Node.stands_of_parseWithin h (State.interpolated_run limits text) n hn
  obtain ⟨kids, last, q, mode, rfl, hends, hclosed⟩ := hinterpolated hkind
  have hrest := hclosed.append
  obtain ⟨body, hbody⟩ :
      ∃ body, Shape.sourceAll kids = body ++ Trivia.flatten (q.next mode).1.trailing := by
    obtain ⟨earlier, token, htokens, hkeeps, -⟩ := hends
    rw [← Shape.sourceAll_tokensAll, htokens, Shape.sourceAll_append, Shape.sourceAll_singleton]
    cases token with
    | node => exact hkeeps.elim
    | token kind field leading words trailing =>
      obtain ⟨-, -, rfl, -⟩ := hkeeps
      exact ⟨Shape.sourceAll earlier ++ (Trivia.flatten leading ++ words), by simp [Shape.source]⟩
  refine ⟨front, body, _, rest, start, kids, last, q, mode, ?_, hoffset, hchildren,
    hends, hbody, rfl, fun gap more hgap => ?_⟩
  · rw [htext, Shape.sourceAll_append, Shape.sourceAll_singleton, hbody]
    simp only [List.append_assoc]
  · rw [hrest] at hgap
    have hne : (q.next mode).1.kind ≠ .eof := by
      obtain ⟨-, -, -, -, hne⟩ := hends
      exact hne
    obtain ⟨hsplit, hleft⟩ := Place.next_gathers hne hgap
    refine ⟨hsplit, ?_⟩
    rcases hclosed.of_gathers hleft with hbrace | ⟨hcomment, rfl, -⟩
    · exact .inl hbrace
    · refine .inr ⟨hcomment, rfl, ?_⟩
      have hmade := Tree.Node.isMadeOf_of_children hchildren
      obtain ⟨es, e, hsplit, -, hshape⟩ := Tree.Node.exists_last hmade.elements
      obtain ⟨m, rfl, hm⟩ := Tree.Node.exists_isMadeOf hshape
      have hmem : m ∈ n.nodes := List.mem_filterMap.2 ⟨.node m, by simp [hsplit], rfl⟩
      have hbelow : m ∈ n.descendants :=
        Tree.Node.mem_descendants.2 (.inr ⟨m, hmem, Tree.Node.mem_descendants.2 (.inl rfl)⟩)
      exact Tree.diagnostics_ne_nil h (Tree.Node.mem_descendants_trans hbelow hn) hm.kind_eq

/-- A comment on the line where the expression ends is left to the expression, and the brace is
found: it closes the node, and nothing is reported. -/
theorem interpolations_closed_sameLine :
    ∃ p, parseWithin {} "x = <a>\x7bb /*c*/\n\x7d</a>;".toList = .ok p ∧ p.diagnostics = [] ∧
    ∃ n ∈ p.tree.root.descendants, n.kind = .xmlExpr ∧
      n.tokens.map (fun t => (t.kind, t.span)) = [(.lCurly, ⟨7, 8⟩), (.name, ⟨8, 9⟩),
        (.whitespace, ⟨9, 10⟩), (.blockComment, ⟨10, 15⟩), (.newline, ⟨15, 16⟩),
        (.rCurly, ⟨16, 17⟩)] ∧
      ∃ (front body behind rest : Text) (start : Progress) (kids : List Shape)
      (last : Shape) (q : Place)
        (mode : Mode),
        "x = <a>\x7bb /*c*/\n\x7d</a>;".toList = front ++ (body ++ behind) ∧
        n.children = (start.layAll (kids ++ [last])).1 ∧ Shape.EndsAt kids q mode ∧
        behind = Trivia.flatten (q.next mode).1.trailing ++ (last.source ++ rest) ∧
        (∃ leading trailing, last = .token .rCurly none leading ['}'] trailing) ∧
        ∀ (gap : List Trivia) (more : Text),
          Trivia.leadingRun true behind = ⟨gap, '}' :: more, none⟩ →
          gap = (q.next mode).1.trailing ++ mode.leave gap ∧
          last = .token .rCurly none (mode.leave gap) ['}'] [] ∧ rest = more := by
  obtain ⟨p, hp, htest⟩ := exists_parse_of_test {} "x = <a>\x7bb /*c*/\n\x7d</a>;".toList
    (fun p => p.diagnostics.isEmpty && p.tree.root.descendants.any fun n =>
      n.kind == .xmlExpr &&
      n.tokens.map (fun t => (t.kind, t.span)) == [(.lCurly, ⟨7, 8⟩), (.name, ⟨8, 9⟩),
        (.whitespace, ⟨9, 10⟩), (.blockComment, ⟨10, 15⟩), (.newline, ⟨15, 16⟩),
        (.rCurly, ⟨16, 17⟩)] &&
      n.elements.getLast?.any fun e => e.token?.any fun t =>
        t.kind == .rCurly && t.field == none && t.leaf.text == ['}'])
    (by decide +kernel)
  simp only [Bool.and_eq_true, List.isEmpty_iff, List.any_eq_true, beq_iff_eq, Option.any_eq_true]
    at htest
  obtain ⟨hclean, n, hn, ⟨hkind, htokens⟩, e, he, t, ht, ⟨hcurly, hfield⟩, htext⟩ := htest
  obtain ⟨front, body, behind, rest, start, kids, last, q, mode, htext', -, hchildren,
    hends, -, hbehind, hclosed⟩ := interpolations_closed hp hn hkind
  obtain ⟨es, d, hes, -, hshape⟩ :=
    Tree.Node.exists_last (Tree.Node.isMadeOf_of_children hchildren).elements
  have hlast : ∃ leading trailing, last = .token .rCurly none leading ['}'] trailing := by
    rw [hes, List.getLast?_concat, Option.some.injEq] at he
    subst he
    cases last with
    | node kind field children =>
      obtain ⟨m, rfl, -⟩ := hshape
      cases ht
    | token kind field leading words trailing =>
      obtain ⟨t', rfl, rfl, rfl, rfl⟩ := hshape
      obtain rfl : t' = t := Option.some.inj ht
      exact ⟨leading, trailing, by rw [hcurly, hfield, htext]⟩
  refine ⟨p, hp, hclean, n, hn, hkind, htokens, front, body, behind, rest, start, kids,
    last, q, mode, htext', hchildren, hends, hbehind, hlast, fun gap more hgap => ?_⟩
  obtain ⟨hsplit, ⟨-, hbrace, hrest⟩ | ⟨-, hmissing, -⟩⟩ := hclosed gap more hgap
  · exact ⟨hsplit, hbrace, hrest⟩
  · obtain ⟨_, _, rfl⟩ := hlast
    cases hmissing

/-- A comment on a line of its own is left for the brace, which is missed. -/
theorem comment_left_for_brace :
    (∃ p, parseWithin {} "x = b;".toList = .ok p ∧ p.diagnostics = []) ∧
      ∃ p, parseWithin {} "x = <a>\x7bb\n/*c*/\x7d</a>;".toList = .ok p ∧ p.diagnostics ≠ [] := by
  refine ⟨exists_clean_parse _ _ (by decide +kernel), ?_⟩
  obtain ⟨p, hp, -⟩ :=
    exists_parseWithin (Limits.endless_maxDepth 256) "x = <a>\x7bb\n/*c*/\x7d</a>;".toList
  obtain ⟨n, hn, hkind⟩ := exists_descendant hp (fun n => n.kind == .error) (by decide +kernel)
  exact ⟨p, hp, Tree.diagnostics_ne_nil hp hn (eq_of_beq hkind)⟩

end ActionScript
