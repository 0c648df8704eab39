import ActionScript.Proofs.Avoiding
import ActionScript.Proofs.Markup.Crafted
import ActionScript.Proofs.Sessions

/-!
# Where no line break may stand

`return` and `throw` take no value from the next line, `break` and `continue` no label, and an
operand no `++` or `--` behind it.  Whether a token starts a line is seen when it is looked at as
code, and no other way of reading it finds a line break in front of it where code has none.

* `Place.startsLine_operator`: a token that starts a line does so as code.
* `Shape.startsLine`: does the first token of a shape start a line?  `Shape.Joined`: what a
  restricted node holds does not.
* `Setting.joins_atDepth`, `State.joined_run`: **all nodes are joined**, at every depth.
-/

set_option autoImplicit false

namespace ActionScript

open ActionScript.Parser ActionScript.Grammar

/-! ## Pieces in front of a token and behind it -/

namespace Trivia

/-- In code the pieces in front of a token are the same, and maybe more. -/
theorem run_leading_prefix (limit offset : Nat) (cs : Text) :
    (run (leading? false) limit offset cs).pieces <+:
      (run (leading? true) limit offset cs).pieces := by
  induction limit generalizing offset cs with
  | zero => exact List.prefix_refl _
  | succ limit ih =>
    rw [run, run]
    cases hcut : leading? false cs with
    | none => exact List.nil_prefix
    | some cut =>
      have hcode : leading? true cs = some cut := by
        rw [← hcut, leading?, leading?]
        cases hbreak : lineBreak? cs with
        | some c => rfl
        | none =>
          -- a comment does not open with a blank
          cases hcomment : comment? cs with
          | none => rfl
          | some c =>
            obtain ⟨ds, rfl⟩ : ∃ ds, cs = '/' :: ds := by
              unfold comment? at hcomment
              split at hcomment
              · exact ⟨_, rfl⟩
              · exact ⟨_, rfl⟩
              · cases hcomment
            have hblank : isBlank '/' = false := by decide
            simp [leading?, hbreak, blanks?, hblank] at hcut
      rw [hcode]
      exact (List.prefix_cons_inj _).2 (ih _ _)

theorem trailing?_not_breaksLine {cs : Text} {cut : Cut} (h : trailing? cs = some cut) :
    cut.piece.breaksLine = false := by
  rcases trailing?_cases h with ⟨-, hbreaks⟩ | h
  · exact hbreaks
  · simp [breaksLine, blanks?_kind h]

/-- No piece behind a token breaks a line. -/
theorem trailingRun_not_breaksLine (cs : Text) :
    ∀ t ∈ (trailingRun cs).pieces, t.breaksLine = false :=
  forall_run trailing?_not_breaksLine

end Trivia

namespace Place

variable {p : Place} {mode : Mode}

variable [Alphabet]

/-- In code the same pieces stand in front of a token, however it is read. -/
theorem leading_of_isCode (h : mode.isCode = true) :
    (p.next mode).1.leading = (p.next .operator).1.leading := by
  cases mode <;> first | rfl | cases h

theorem startsLine_of_isCode (h : mode.isCode = true) :
    (p.next mode).1.startsLine = (p.next .operator).1.startsLine := by
  rw [Token.startsLine, Token.startsLine, leading_of_isCode h]

/-- **A token that starts a line does so as code.** -/
theorem startsLine_operator (h : (p.next mode).1.startsLine = true) :
    (p.next .operator).1.startsLine = true := by
  have hcode (m : Mode) (hm : m.isCode = true) (h : (p.next m).1.startsLine = true) :
      (p.next .operator).1.startsLine = true := by rwa [startsLine_of_isCode hm] at h
  cases mode with
  | operator => exact h
  | exprStart => exact hcode _ rfl h
  | typeArgs => exact hcode _ rfl h
  | xmlTag =>
    obtain ⟨t, ht, hbreaks⟩ := List.any_eq_true.1 h
    exact List.any_eq_true.2 ⟨t, (Trivia.run_leading_prefix _ _ _).subset ht, hbreaks⟩
  | xmlContent => cases h

/-- No piece behind a token breaks a line. -/
theorem trailing_not_breaksLine : ∀ t ∈ (p.next mode).1.trailing, t.breaksLine = false := by
  change ∀ t ∈ (mode.trailing _ _).pieces, t.breaksLine = false
  unfold Mode.trailing
  split
  · exact Trivia.trailingRun_not_breaksLine _
  · simp

end Place

/-! ## Shapes -/

namespace Shape

/-- Does the first of some tokens start a line? -/
def firstStartsLine : List Shape → Bool
  | .token _ _ leading _ _ :: _ => leading.any Trivia.breaksLine
  | _ => false

/-- Does the first token of a shape start a line? -/
def startsLine (s : Shape) : Bool := firstStartsLine s.tokens

@[simp] theorem startsLine_withField (f : Field) (s : Shape) :
    (s.withField f).startsLine = s.startsLine := by
  cases s <;> simp [startsLine, withField, firstStartsLine]

/-- The slot of a restricted node that no line break may stand in front of. -/
def restrictedSlot : Kind → Option Field
  | .returnStmt | .throwStmt => some .value
  | .breakStmt | .continueStmt => some .label
  | .updateExpr => some .operator
  | _ => none

/-- The restricted child of a node stands right behind the first one, on its line; the operator of
an update may also come first. -/
def Joined (kind : Kind) (children : List Shape) : Prop :=
  ∀ f ∈ restrictedSlot kind, ∀ before c behind, children = before ++ c :: behind →
    c.slot? = some f →
    kind = .updateExpr ∧ before = [] ∨ before.length = 1 ∧ c.startsLine = false

/-- The kinds of restricted nodes. -/
def joinedKinds : List Kind := [.returnStmt, .throwStmt, .breakStmt, .continueStmt, .updateExpr]

theorem joined_of_not_mem (kind : Kind) (children : List Shape) (h : kind ∉ joinedKinds) :
    Joined kind children := by
  have hslot : restrictedSlot kind = none := by
    unfold restrictedSlot
    split <;> first | rfl | exact absurd (by decide) h
  intro f hf
  rw [hslot] at hf
  cases hf

/-- A keyword, then what is restricted, if it is there at all. -/
theorem joined_cons {kind : Kind} {keyword : Shape} {part more : List Shape}
    (hkeyword : keyword.slot? = none) (hlength : part.length ≤ 1)
    (hpart : ∀ c ∈ part, c.startsLine = false) (hmore : ∀ c ∈ more, c.slot? = none) :
    Joined kind (keyword :: (part ++ more)) := by
  intro f _ before c behind heq hslot
  cases before with
  | nil =>
    obtain ⟨rfl, -⟩ := List.cons.inj heq
    rw [hkeyword] at hslot
    cases hslot
  | cons b before =>
    obtain ⟨-, heq⟩ := List.cons.inj heq
    rcases List.append_eq_append_iff.1 heq with ⟨others, -, rfl⟩ | ⟨others, rfl, hothers⟩
    · rw [hmore c (by simp)] at hslot
      cases hslot
    · cases others with
      | nil =>
        rw [List.nil_append] at hothers
        rw [hmore c (by rw [← hothers]; exact List.mem_cons_self)] at hslot
        cases hslot
      | cons d others =>
        obtain ⟨rfl, -⟩ := List.cons.inj hothers
        rw [List.length_append, List.length_cons] at hlength
        exact .inr ⟨by rw [List.length_cons]; omega, hpart _ (by simp)⟩

end Shape

instance : Kind.Special Shape.joinedKinds := ⟨by decide⟩

/-! ## What is taken from the same line -/

variable [Alphabet]

/-- What a run makes where the next token starts no line starts none. -/
theorem State.Consumes.startsLine {s t : State} {c : Shape} (h : s.Consumes t)
    (ha : t.aborted = none) (hchildren : t.children = c :: s.children)
    (hline : (s.place.next .operator).1.startsLine = false) : c.startsLine = false := by
  obtain ⟨modes, taken, -, htokens, hkeeps, -⟩ := h.reads ha
  rw [hchildren, List.reverse_cons, Shape.tokensAll_append, List.append_cancel_left_eq] at htokens
  rw [Shape.tokensAll_cons, Shape.tokensAll_nil, List.append_nil] at htokens
  rw [Shape.startsLine, htokens]
  cases modes with
  | nil =>
    rw [Place.read_nil, List.forall₂_nil_left_iff] at hkeeps
    rw [hkeeps]
    rfl
  | cons mode modes =>
    rw [Place.read_cons] at hkeeps
    obtain ⟨first, others, hfirst, -, rfl⟩ := List.forall₂_cons_left_iff.1 hkeeps
    cases first with
    | node kind field children => exact hfirst.elim
    | token kind field leading text trailing =>
      obtain ⟨rfl, -⟩ := hfirst
      rw [← Bool.not_eq_true] at hline ⊢
      exact fun hstarts => hline (Place.startsLine_operator hstarts)

namespace Setting

/-- The rules keep nodes joined, and consume what they read. -/
structure Joins (E : Setting) : Prop where
  retains : E.Retains Shape.Joined False
  consumes : ∀ (rule : Rule) (s : State), rule.Ready s → s.Consumes (E.apply rule s)

variable {E : Setting} {s : State}

/-- A name is a node in its slot. -/
theorem children_name (field : Field) (stops : List Kind) : ∃ kind kids,
    (E.after (name field stops) s).children = .node kind (some field) kids :: s.children := by
  obtain ⟨kind, kids, hmakes⟩ : s.Makes (E.after (if E.val (sees .name) s then leaf .ident else
      rejectUnless ((KindSet.ofList stops).union closers) .expectedIdentifier)
      (s.inMode .operator)) := by
    split
    · exact makes_leaf (s := s.inMode .operator) _
    · exact makes_rejectUnless (s := s.inMode .operator) _ _
  exact ⟨kind, kids, State.labelLast_children _ _ hmakes⟩

namespace Joins

variable (hE : E.Joins)
include hE

theorem keeps_joined {α : Type} {p : Parser α} (hp : p.Avoids Shape.joinedKinds True True) :
    E.Keeps Shape.Joined False p s := keeps_of_avoids Shape.joined_of_not_mem hE.retains hp

omit hE in
/-- What the end of a statement adds fills no slot. -/
theorem adds_semicolon : s.Adds (fun c => c.slot? = none) (E.after semicolon s) := by
  rw [semicolon, after_bind, val_eat]
  cases hfound : (s.place.ahead == .semicolon) with
  | true =>
    have heat :
        E.after (eat .semicolon) s = (s.inMode .operator).takeAs E.limits .semicolon none := by
      simp [eat, beq_iff_eq.1 hfound]
    rw [heat]
    exact .one (State.takeAs_children _ _ _ _) rfl
  | false =>
    have heat : E.after (eat .semicolon) s = s.inMode .operator := by simp [eat, hfound]
    rw [heat]
    simp only [Bool.not_false, after_when, if_true, after_bind, val_look, after_look, after_report]
    split
    · split
      · exact .one (by rw [skipStatement, after_nodeOf, State.close_children]; simp; rfl) rfl
      · exact .of_eq (by simp)
    · exact .of_eq (by simp)

/-- What a statement takes behind its keyword, if the next token starts no line, and its end. -/
theorem joined_restricted {kind keyword : Kind} {field : Field} {part : Parser Unit}
    {c : Glimpse → Bool} (hsafe : ∀ t, E.Safe part t)
    (hpart : ∀ t, ∃ kind kids, (E.after part t).children = .node kind (some field)
      kids :: t.children)
    (hc : ∀ g, c g = true → g.startsLine = false)
    (ha : (E.after (do
      takeWord keyword none
      let g ← look .operator
      when (c g) part
      semicolon) s).aborted = none) (hs : s.children = []) :
    Shape.Joined kind (E.after (do
      takeWord keyword none
      let g ← look .operator
      when (c g) part
      semicolon) s).children.reverse := by
  simp only [after_bind, after_when, val_look, after_look, after_takeWord] at ha ⊢
  have ha := (E.leads_after semicolon _).aborted ha
  obtain ⟨more, hmore, hslots⟩ := adds_semicolon (E := E) (s := if
    c (State.glimpse ((s.takeAs E.limits keyword none).place.next .operator).1) = true then
      E.after part ((s.takeAs E.limits keyword none).inMode .operator)
    else (s.takeAs E.limits keyword none).inMode .operator)
  rw [hmore]
  have hslots : ∀ c ∈ more.reverse, c.slot? = none := fun c hc => hslots c (List.mem_reverse.1 hc)
  split at ha <;> rename_i hline
  · rw [if_pos hline]
    obtain ⟨kind, kids, hchildren⟩ := hpart ((s.takeAs E.limits keyword none).inMode .operator)
    have hconsumes := consumes_after hE.consumes
      (hsafe ((s.takeAs E.limits keyword none).inMode .operator))
    have hfirst := hconsumes.startsLine ha hchildren (hc _ hline)
    rw [hchildren, State.inMode_children, State.takeAs_children, hs, List.reverse_append]
    exact Shape.joined_cons rfl (Nat.le_refl 1) (by simpa using hfirst) hslots
  · rw [if_neg hline, State.inMode_children, State.takeAs_children, hs, List.reverse_append]
    exact Shape.joined_cons rfl (Nat.zero_le 1) (by simp) hslots

theorem keeps_valueStatement {keyword kind : Kind} :
    E.Keeps Shape.Joined False (valueStatement keyword kind) s := by
  have hsame (g : Glimpse) (h : (!(g.kind == .semicolon || g.kind == .rCurly || g.kind == .eof ||
      g.startsLine)) = true) : g.startsLine = false := by
    simp only [Bool.not_or, Bool.and_eq_true, Bool.not_eq_true'] at h
    exact h.2
  have hvalue (t : State) : ∃ kind kids, (E.after (expression .value) t).children =
      .node kind (some .value) kids :: t.children := by
    obtain ⟨kind, kids, hmakes⟩ := E.makes (.expression .comma {}) t
    exact ⟨kind, kids, State.labelLast_children _ _ hmakes⟩
  rw [valueStatement]
  exact .nodeOf (keeps_joined hE (by simp)) fun htame =>
    joined_restricted hE (fun t => safe_expression _) hvalue hsame htame.aborted rfl

theorem keeps_jumpStatement {keyword kind : Kind} :
    E.Keeps Shape.Joined False (jumpStatement keyword kind) s := by
  have hsame (g : Glimpse) (h : (g.kind == .name && !g.startsLine) = true) :
      g.startsLine = false := by
    simpa using (Bool.and_eq_true_iff.1 h).2
  rw [jumpStatement]
  exact .nodeOf (keeps_joined hE (by simp)) fun htame =>
    joined_restricted hE (fun t => safe_name _ _) (fun t => children_name _ _) hsame
      htame.aborted rfl

/-! ## Updates -/

omit hE in
/-- An update behind an operand stands on the line of the operand. -/
theorem keeps_update (hline : (s.place.next s.mode).1.startsLine = false) :
    E.Keeps Shape.Joined False (.wrap .argument do
      take (some .operator)
      return .updateExpr) s := by
  intro hs htame
  rw [after_wrap] at htame ⊢
  have htame := htame.of_close
  rw [after_bind, after_pure, after_take] at htame ⊢
  rw [val_bind, val_pure]
  refine ((hs.wrapped _ _).takeAs _ _ _).close (fun c hc => hs c (List.mem_of_mem_drop hc)) ?_
  have ha := (State.Leads.takeAs _ E.limits _ (some .operator)).aborted htame.aborted
  rw [State.takeAs_children, State.enter_token ha, State.enter_children, List.reverse_cons]
  have hlength : ((s.children.take 1).map (Shape.withField .argument)).reverse.length ≤ 1 := by
    rw [List.length_reverse, List.length_map]
    exact List.length_take_le 1 s.children
  have hslots : ∀ c ∈ ((s.children.take 1).map (Shape.withField .argument)).reverse,
      c.slot? = some .argument := by
    intro c hc
    obtain ⟨d, -, rfl⟩ := List.mem_map.1 (List.mem_reverse.1 hc)
    exact Shape.slot?_withField _ _
  generalize ((s.children.take 1).map (Shape.withField .argument)).reverse = operand at *
  intro f hf before c behind heq hslot
  cases hf
  have hlast
      (hc : .token (s.place.next s.mode).1.kind (some .operator) (s.place.next s.mode).1.leading
        (s.place.next s.mode).1.text (s.place.next s.mode).1.trailing = c)
        (hbefore : before = operand) :
      Kind.updateExpr = .updateExpr ∧ before = [] ∨ before.length = 1 ∧ c.startsLine = false := by
    subst hc hbefore
    rcases Nat.le_one_iff_eq_zero_or_eq_one.1 hlength with hnone | hone
    · exact .inl ⟨rfl, List.length_eq_zero_iff.1 hnone⟩
    · refine .inr ⟨hone, ?_⟩
      rw [Shape.startsLine, Shape.tokens_token]
      exact hline
  rcases List.append_eq_append_iff.1 heq with ⟨others, hbefore, hrest⟩ | ⟨others, hoperand, hrest⟩
  · cases others with
    | nil => exact hlast (List.cons.inj hrest).1 (by simpa using hbefore)
    | cons d others => simp at hrest
  · cases others with
    | nil => exact hlast (List.cons.inj hrest).1.symm (by simpa using hoperand.symm)
    | cons d others =>
      obtain ⟨rfl, -⟩ := List.cons.inj hrest
      rw [hslots _ (by simp [hoperand])] at hslot
      cases hslot

theorem keeps_link (calls : Bool) : E.Keeps Shape.Joined False (link calls) s := by
  have hupdate (g : Glimpse) (hg : g.startsLine = (s.place.next .operator).1.startsLine) :
      E.Keeps Shape.Joined False (if calls && !g.startsLine then do
        .wrap .argument do
          take (some .operator)
          return .updateExpr
        return false
      else return false) (s.inMode .operator) := by
    split
    · rename_i hline
      rw [Bool.and_eq_true, Bool.not_eq_true', hg] at hline
      exact .bind (keeps_update hline.2) fun hs _ => hs
    · exact fun hs _ => hs
  rw [link]
  refine .bind (fun hs _ => hs) ?_
  split
  case h_7 => exact hupdate _ rfl
  case h_8 => exact hupdate _ rfl
  all_goals exact keeps_joined hE (by simp +decide)

theorem keeps_chain (calls : Bool) : E.Keeps Shape.Joined False (chain calls) s :=
  .loop fun _ => keeps_link hE calls

/-- In front of an operand no operand stands before the operator. -/
theorem keeps_leading (op kind : Kind) (hkind : kind = .updateExpr ∨ kind = .unaryExpr) :
    E.Keeps Shape.Joined False (nodeOf kind do
      takeOperator op
      callIn .argument .unary) s := by
  refine .nodeOf (keeps_joined hE (by simp [takeOperator])) fun _ => ?_
  have htaken (t : State) : ∃ c, (E.after (takeOperator op) t).children = c :: t.children := by
    unfold takeOperator
    split <;> exact ⟨_, State.takeAs_children _ _ _ _⟩
  obtain ⟨d, hd⟩ := htaken (s.enter E.limits [])
  obtain ⟨made, kids, hmakes⟩ := E.makes .unary (E.after (takeOperator op) (s.enter E.limits []))
  rw [after_bind, after_callIn, State.labelLast_children _ _ hmakes, hd, State.enter_children]
  intro f hf before c behind heq hslot
  rcases hkind with rfl | rfl <;> cases hf
  cases before with
  | nil => exact .inl ⟨rfl, rfl⟩
  | cons b before =>
    have hc : c ∈ before ++ c :: behind := by simp
    simp only [List.reverse_cons, List.reverse_nil, List.nil_append, List.cons_append,
      List.cons.injEq] at heq
    rw [← heq.2, List.mem_singleton] at hc
    subst hc
    cases hslot

theorem keeps_chained : E.Keeps Shape.Joined False chained s :=
  .bind (fun hs _ => hs) (.bind (keeps_joined hE (by simp +decide)) (keeps_chain hE true))

theorem keeps_unaryRule : E.Keeps Shape.Joined False unaryRule s := by
  refine .bind (fun hs _ => hs) ?_
  split
  · exact keeps_chained hE
  · rename_i op _
    refine keeps_leading hE op _ ?_
    split
    · exact .inl rfl
    · exact .inr rfl

theorem keeps_constructionRule : E.Keeps Shape.Joined False constructionRule s := by
  have hkind : constructionRule.Closes fun kind => kind ∉ Shape.joinedKinds := by
    simp +decide [constructionRule]
  rw [constructionRule] at hkind ⊢
  refine .node ?_ fun _ _ => Shape.joined_of_not_mem _ _ (hkind.val E _)
  refine .bind (fun hs _ => hs.takeAs _ _ _) (.bind (fun hs _ => hs) ?_)
  split
  · exact keeps_joined hE (by simp)
  · exact .bind (keeps_joined hE (by simp +decide))
      (.bind (keeps_chain hE false) (keeps_joined hE (by simp)))

/-! ## Statements -/

theorem keeps_wordStatement (g : Glimpse) : E.Keeps Shape.Joined False (wordStatement g) s := by
  unfold wordStatement
  split
  case h_8 => exact keeps_jumpStatement hE
  case h_9 => exact keeps_jumpStatement hE
  case h_10 => exact keeps_valueStatement hE
  case h_11 => exact keeps_valueStatement hE
  all_goals exact keeps_joined hE (by simp +decide)

theorem keeps_statementRule : E.Keeps Shape.Joined False statementRule s := by
  refine .bind (fun hs _ => hs) ?_
  split
  case h_4 => exact keeps_wordStatement hE _
  all_goals exact keeps_joined hE (by simp +decide)

end Joins

/-! ## At every depth -/

/-- **All nodes are joined**, at every depth. -/
theorem joins_atDepth (limits : Limits) (depth : Nat) : (atDepth limits depth).Joins := by
  refine ⟨?_, consumes_atDepth limits depth⟩
  induction depth with
  | zero => exact retains_zero Shape.joined_of_not_mem limits
  | succ depth ih =>
    have ih : (atDepth limits depth).Joins := ⟨ih, consumes_atDepth limits depth⟩
    intro rule s
    have hrule (h : (atDepth limits depth).Keeps Shape.Joined False (Grammar.rule rule) s) :
        (atDepth limits (depth + 1)).Keeps Shape.Joined False (.call rule) s := h
    refine hrule ?_
    cases rule with
    | statement => exact ih.keeps_statementRule
    | expression min r => exact ih.keeps_joined (avoids_expressionRule min r)
    | unary => exact ih.keeps_unaryRule
    | construction => exact ih.keeps_constructionRule
    | type => exact ih.keeps_joined avoids_typeRule
    | element => exact ih.keeps_joined (avoids_elementRule (by decide) trivial)

end Setting

/-- All nodes of a parse are joined. -/
theorem State.joined_run {limits : Limits} {text : Text}
    (ha : (State.run limits text).aborted = none) : (State.run limits text).Every Shape.Joined := by
  have hkeeps : (Setting.atDepth limits limits.maxDepth).Keeps Shape.Joined False sourceFile
      (State.start text) :=
    (Setting.joins_atDepth limits _).keeps_joined (by simp +decide [sourceFile])
  exact hkeeps (fun c hc => (by cases hc)) ⟨ha, fun h => h.elim⟩

end ActionScript
