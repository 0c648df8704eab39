import ActionScript.Proofs.Setting

/-!
# The common pieces

What the small parsers that all rules are made of do in a setting: looking, taking what was seen,
making nodes, and getting over errors.  Each has its value, the state behind it, and whether it is
safe, makes a node or moves on.
-/

set_option autoImplicit false

namespace ActionScript

/-! ## Only looking ahead -/

/-- The parser only looks ahead. -/
def Parser.OnlyLooks : {α : Type} → Parser α → Prop
  | _, .done _ => True
  | _, .andThen first next => OnlyLooks first ∧ ∀ value, OnlyLooks (next value)
  | _, .ahead _ => True
  | _, _ => False

variable [Alphabet]

namespace Parser.OnlyLooks

variable {E : Setting} {s : State} {α : Type}

theorem safe {p : Parser α} (h : p.OnlyLooks) : E.Safe p s := by
  induction p generalizing s with
  | done value => trivial
  | andThen first next ihFirst ihNext => exact ⟨ihFirst h.1, ihNext _ (h.2 _)⟩
  | ahead distance => trivial
  | _ => exact h.elim

/-- Where a parser only looks ahead, nothing changes but the mode. -/
theorem after_inMode {p : Parser α} (h : p.OnlyLooks) :
    E.after p (s.inMode .operator) = s.inMode .operator := by
  induction p with
  | done value => rfl
  | andThen first next ihFirst ihNext =>
    change E.after (next _) (E.after first _) = _
    rw [ihFirst h.1, ihNext _ (h.2 _)]
  | ahead distance => rfl
  | _ => exact h.elim

theorem after_cases {p : Parser α} (h : p.OnlyLooks) :
    E.after p s = s ∨ E.after p s = s.inMode .operator := by
  induction p generalizing s with
  | done value => exact .inl rfl
  | andThen first next ihFirst ihNext =>
    change E.after (next _) (E.after first s) = _ ∨ E.after (next _) (E.after first s) = _
    rcases ihFirst h.1 (s := s) with hs | hs
    · rw [hs]
      exact ihNext _ (h.2 _)
    · rw [hs, after_inMode (h.2 _)]
      exact .inr rfl
  | ahead distance => exact .inr rfl
  | _ => exact h.elim

/-- What a parser that only looks ahead finds depends on the place only. -/
theorem val_eq {p : Parser α} (h : p.OnlyLooks) {t : State} (hp : t.place = s.place) :
    E.val p t = E.val p s := by
  induction p generalizing s t with
  | done value => rfl
  | andThen first next ihFirst ihNext =>
    change E.val (next (E.val first t)) (E.after first t) =
      E.val (next (E.val first s)) (E.after first s)
    have hplace (u : State) : (E.after first u).place = u.place := by
      rcases after_cases h.1 (E := E) (s := u) with hu | hu <;> rw [hu]
      rfl
    rw [ihFirst h.1 hp]
    exact ihNext _ (h.2 _) (by rw [hplace, hplace, hp])
  | ahead distance =>
    change State.glimpse (State.tokenAhead distance t.place) = _
    rw [hp]
    rfl
  | _ => exact h.elim

end Parser.OnlyLooks

namespace Setting

open ActionScript.Parser ActionScript.Grammar

variable {E : Setting} {s : State} {α : Type}

/-! ## Looking -/

@[simp] theorem val_peek : E.val peek s = s.place.ahead := (rfl)
@[simp] theorem after_peek : E.after peek s = s.inMode .operator := (rfl)
@[simp] theorem safe_peek : E.Safe peek s := ⟨trivial, trivial⟩

@[simp] theorem runs_peek {Q : Kind → State → Prop} :
    E.Runs peek s Q ↔ Q s.place.ahead (s.inMode .operator) := by
  simp [Setting.Runs]

@[simp] theorem val_sees (kind : Kind) : E.val (sees kind) s = (s.place.ahead == kind) := (rfl)
@[simp] theorem after_sees (kind : Kind) : E.after (sees kind) s = s.inMode .operator := (rfl)
@[simp] theorem safe_sees (kind : Kind) : E.Safe (sees kind) s := ⟨safe_peek, trivial⟩

@[simp] theorem runs_sees {kind : Kind} {Q : Bool → State → Prop} :
    E.Runs (sees kind) s Q ↔ Q (s.place.ahead == kind) (s.inMode .operator) := by
  simp [Setting.Runs]

@[simp] theorem val_seesIn (mode : Mode) (kind : Kind) :
    E.val (seesIn mode kind) s = ((s.place.next mode).1.kind == kind) := (rfl)
@[simp] theorem after_seesIn (mode : Mode) (kind : Kind) :
    E.after (seesIn mode kind) s = s.inMode mode := (rfl)
@[simp] theorem safe_seesIn (mode : Mode) (kind : Kind) : E.Safe (seesIn mode kind) s :=
  ⟨trivial, trivial⟩

@[simp] theorem runs_seesIn {mode : Mode} {kind : Kind} {Q : Bool → State → Prop} :
    E.Runs (seesIn mode kind) s Q ↔ Q ((s.place.next mode).1.kind == kind) (s.inMode mode) := by
  simp [Setting.Runs]

@[simp] theorem val_seesWord (word : String) :
    E.val (seesWord word) s = (State.glimpse (s.place.next .operator).1).isWord word := (rfl)
@[simp] theorem after_seesWord (word : String) :
    E.after (seesWord word) s = s.inMode .operator := (rfl)
@[simp] theorem safe_seesWord (word : String) : E.Safe (seesWord word) s := ⟨trivial, trivial⟩

@[simp] theorem runs_seesWord {word : String} {Q : Bool → State → Prop} :
    E.Runs (seesWord word) s Q ↔
      Q ((State.glimpse (s.place.next .operator).1).isWord word) (s.inMode .operator) := by
  simp [Setting.Runs]

/-! ## Conditions -/

@[simp] theorem after_when (c : Bool) (p : Parser Unit) :
    E.after (when c p) s = if c then E.after p s else s := by
  cases c <;> rfl

@[simp] theorem safe_when {c : Bool} {p : Parser Unit} :
    E.Safe (when c p) s ↔ (c = true → E.Safe p s) := by
  cases c <;> simp [when]

@[simp] theorem runs_when {c : Bool} {p : Parser Unit} {Q : Unit → State → Prop} :
    E.Runs (when c p) s Q ↔ (c = true → E.Runs p s Q) ∧ (c = false → Q () s) := by
  cases c <;> simp [when]

/-! ## Moving on -/

theorem moves_bind_left {β : Type} {p : Parser β} {f : β → Parser α} (h : s.Moves (E.after p s)) :
    s.Moves (E.after (p >>= f) s) :=
  h.trans_leads (E.leads_after _ _)

theorem moves_bind_right {β : Type} {p : Parser β} {f : β → Parser α}
    (h : (E.after p s).Moves (E.after (f (E.val p s)) (E.after p s))) :
    s.Moves (E.after (p >>= f) s) :=
  (E.leads_after p s).trans_moves h

/-- A token that is required and taken moves on. -/
theorem moves_require_take {mode : Mode} {kind : Kind} {field : Option Field}
    {next : Unit → Parser α} (h : s.token.kind ≠ .eof) :
    s.Moves (E.after (.require mode kind >>= fun _ => .take field >>= next) s) :=
  moves_bind_right <| moves_bind_left <|
    State.moves_takeAs (s := E.after (.require mode kind) s) _ _ _ h

/-- A node moves on if its body does, from the same place; if entering it stops the parse, that
moves on too. -/
theorem moves_node {body : Parser (Kind × α)} (hrest : s.place.rest ≠ [])
    (h : ∀ t : State, t.place = s.place → t.mode = s.mode → t.Moves (E.after body t)) :
    s.Moves (E.after (.node body) s) := by
  rcases State.enter_moves E.limits [] hrest with hm | ⟨hp, hmode⟩
  · exact hm.trans_leads ((E.leads_after body _).close _ _)
  · have hmoves := h _ hp hmode
    rw [State.Moves, hp] at hmoves
    exact hmoves

theorem moves_wrap {field : Field} {body : Parser Kind} (hrest : s.place.rest ≠ [])
    (h : ∀ t : State, t.place = s.place → t.mode = s.mode → t.Moves (E.after body t)) :
    s.Moves (E.after (.wrap field body) s) := by
  rcases State.enter_moves E.limits ((s.children.take 1).map (Shape.withField field)) hrest with
    hm | ⟨hp, hmode⟩
  · exact hm.trans_leads ((E.leads_after body _).close _ _)
  · have hmoves := h _ hp hmode
    rw [State.Moves, hp] at hmoves
    exact hmoves

/-! ## Nodes -/

@[simp] theorem after_nodeOf (kind : Kind) (body : Parser Unit) :
    E.after (nodeOf kind body) s =
      (E.after body (s.enter E.limits [])).close s.children kind := (rfl)
@[simp] theorem safe_nodeOf {kind : Kind} {body : Parser Unit} :
    E.Safe (nodeOf kind body) s ↔ E.Safe body (s.enter E.limits []) := by
  simp [nodeOf]

theorem makes_node (body : Parser (Kind × α)) : s.Makes (E.after (.node body) s) :=
  State.makes_close s _ _

theorem makes_nodeOf (kind : Kind) (body : Parser Unit) : s.Makes (E.after (nodeOf kind body) s) :=
  State.makes_close s _ _

theorem moves_nodeOf {kind : Kind} {body : Parser Unit} (hrest : s.place.rest ≠ [])
    (h : ∀ t : State, t.place = s.place → t.mode = s.mode → t.Moves (E.after body t)) :
    s.Moves (E.after (nodeOf kind body) s) :=
  moves_node hrest fun t hp hm => moves_bind_left (h t hp hm)

/-- A node around the element made last takes its place. -/
theorem makes_wrap {t : State} {field : Field} {body : Parser Kind} (h : s.Makes t) :
    s.Makes (E.after (.wrap field body) t) := by
  obtain ⟨kind, children, h⟩ := h
  rw [after_wrap]
  have hdrop : t.children.drop 1 = s.children := by rw [h, List.drop_one, List.tail_cons]
  rw [hdrop]
  exact State.makes_close s _ _

/-- A node that opens with a token moves on. -/
theorem moves_nodeOf_take {kind : Kind} {field : Option Field} {next : Unit → Parser Unit}
    (h : s.token.kind ≠ .eof) : s.Moves (E.after (nodeOf kind (.take field >>= next)) s) :=
  moves_nodeOf (Place.rest_ne_nil h) fun _ hp hm =>
    moves_bind_left (State.moves_takeAs _ _ _ (by rwa [State.token, hp, hm]))

/-- A node that opens with a keyword moves on. -/
theorem moves_nodeOf_takeWord {kind keyword : Kind} {field : Option Field}
    {next : Unit → Parser Unit} (h : s.token.kind ≠ .eof) :
    s.Moves (E.after (nodeOf kind (.takeWord keyword field >>= next)) s) :=
  moves_nodeOf (Place.rest_ne_nil h) fun _ hp hm =>
    moves_bind_left (State.moves_takeAs _ _ _ (by rwa [State.token, hp, hm]))

theorem moves_node_takeWord {keyword : Kind} {field : Option Field}
    {next : Unit → Parser (Kind × α)} (h : s.token.kind ≠ .eof) :
    s.Moves (E.after (.node (.takeWord keyword field >>= next)) s) :=
  moves_node (Place.rest_ne_nil h) fun _ hp hm =>
    moves_bind_left (State.moves_takeAs _ _ _ (by rwa [State.token, hp, hm]))

theorem safe_leaf {kind : Kind} (h : s.HasToken) : E.Safe (leaf kind) s := by
  simpa [leaf] using h.enter E.limits []

theorem makes_leaf (kind : Kind) : s.Makes (E.after (leaf kind) s) := makes_nodeOf _ _

@[simp] theorem endsInNode_leaf (kind : Kind) : (E.after (leaf kind) s).EndsInNode :=
  (makes_leaf kind).endsInNode

theorem moves_leaf {kind : Kind} (h : s.token.kind ≠ .eof) : s.Moves (E.after (leaf kind) s) :=
  moves_nodeOf (Place.rest_ne_nil h) fun t hp hm =>
    State.moves_takeAs _ _ _ (by rwa [State.token, hp, hm])

theorem takes_leaf (kind : Kind) : s.Takes (E.after (leaf kind) s) :=
  (State.takes_takeAs (s.enter E.limits []) _ _ _).of_enter

theorem safe_wordLeaf {keyword kind : Kind} (h : s.Sees (Token.IsWordFor keyword)) :
    E.Safe (wordLeaf keyword kind) s := by
  simpa [wordLeaf] using h.enter E.limits []

theorem makes_wordLeaf (keyword kind : Kind) : s.Makes (E.after (wordLeaf keyword kind) s) :=
  makes_nodeOf _ _

@[simp] theorem endsInNode_wordLeaf (keyword kind : Kind) :
    (E.after (wordLeaf keyword kind) s).EndsInNode := (makes_wordLeaf keyword kind).endsInNode

theorem takes_wordLeaf (keyword kind : Kind) : s.Takes (E.after (wordLeaf keyword kind) s) :=
  (State.takes_takeAs (s.enter E.limits []) _ _ _).of_enter

theorem moves_wordLeaf {keyword kind : Kind} (h : s.token.kind ≠ .eof) :
    s.Moves (E.after (wordLeaf keyword kind) s) :=
  moves_nodeOf (Place.rest_ne_nil h) fun t hp hm =>
    State.moves_takeAs _ _ _ (by rwa [State.token, hp, hm])

/-! ## Taking what was seen -/

@[simp] theorem val_eat (kind : Kind) : E.val (eat kind) s = (s.place.ahead == kind) := by
  simp only [eat, val_bind, val_sees, val_ite, val_pure]
  split <;> simp_all

@[simp] theorem safe_eat {kind : Kind} (hk : kind ≠ .eof) : E.Safe (eat kind) s := by
  simp only [eat, safe_bind, safe_sees, val_sees, after_sees, safe_ite, safe_take, safe_pure,
    and_true, true_and, implies_true, beq_iff_eq]
  rintro rfl -
  exact hk

theorem moves_eat {kind : Kind} (hk : kind ≠ .eof) (h : E.val (eat kind) s = true) :
    s.Moves (E.after (eat kind) s) := by
  rw [val_eat, beq_iff_eq] at h
  subst h
  have hm := State.moves_takeAs (s := s.inMode .operator) E.limits s.place.ahead none hk
  simpa [eat] using hm

/-- A token is eaten if it comes next, and then that moves on. -/
theorem runs_eat {kind : Kind} {Q : Bool → State → Prop} (hk : kind ≠ .eof)
    (hq : ∀ t : State, s.Leads t → (s.place.ahead = kind → s.Moves t) →
      (s.place.ahead ≠ kind → t = s.inMode .operator) → Q (s.place.ahead == kind) t) :
    E.Runs (eat kind) s Q := by
  refine ⟨safe_eat hk, ?_⟩
  rw [val_eat]
  refine hq _ (E.leads_after _ _) (fun h => moves_eat hk (by simpa using h)) fun h => ?_
  simp [eat, h]

/-- A repetition that goes on behind a comma moves on with it. -/
theorem runs_eat_comma {t : State} (h : s.Leads t) :
    E.Runs (eat .comma) t fun goesOn u => goesOn = true → s.Moves u :=
  runs_eat (by decide) fun _ _ hcomma _ hon => h.trans_moves (hcomma (by simpa using hon))

/-- A keyword is eaten only where its word stands. -/
@[simp] theorem safe_eatWord {keyword : Kind} (hk : keyword.isKeyword = true) :
    E.Safe (eatWord keyword) s := by
  simp only [eatWord, safe_bind, safe_look, val_look, after_look, safe_ite, safe_takeWord,
    safe_pure, State.sees_inMode, and_true, true_and, implies_true, Bool.and_eq_true, beq_iff_eq]
  exact fun h _ => ⟨h.1, hk, h.2⟩

/-! ## Errors -/

@[simp] theorem safe_missing (error : SyntaxError) : E.Safe (missing error) s := by
  simp [missing]

theorem makes_missing (error : SyntaxError) : s.Makes (E.after (missing error) s) := by
  obtain ⟨kind, children, h⟩ := makes_nodeOf (E := E) (s := s.report error) .error (pure ())
  exact ⟨kind, children, by simpa [missing] using h⟩

@[simp] theorem endsInNode_missing (error : SyntaxError) :
    (E.after (missing error) s).EndsInNode := (makes_missing error).endsInNode

@[simp] theorem safe_reject (error : SyntaxError) : E.Safe (reject error) s := by
  simp only [reject, safe_bind, safe_sees, val_sees, after_sees, safe_ite, safe_missing,
    safe_report, after_report, true_and, implies_true, beq_iff_eq]
  intro h
  refine safe_leaf ?_
  simpa using fun _ => h

theorem makes_reject (error : SyntaxError) : s.Makes (E.after (reject error) s) := by
  simp only [reject, after_bind, val_sees, after_sees, after_ite]
  split
  · exact makes_missing error
  · obtain ⟨kind, children, h⟩ :=
      makes_leaf (E := E) (s := (s.inMode .operator).report error) .error
    exact ⟨kind, children, by simpa using h⟩

@[simp] theorem endsInNode_reject (error : SyntaxError) :
    (E.after (reject error) s).EndsInNode := (makes_reject error).endsInNode

/-- A rejected token is taken. -/
theorem moves_reject {error : SyntaxError} (h : s.place.ahead ≠ .eof) :
    s.Moves (E.after (reject error) s) := by
  have hb : (s.place.ahead == .eof) = false := by simpa using h
  simp only [reject, after_bind, val_sees, after_sees, after_report, hb, if_false,
    Bool.false_eq_true]
  have hm : ((s.inMode .operator).report error).Moves
      (E.after (leaf .error) ((s.inMode .operator).report error)) := moves_leaf (by simpa using h)
  simpa [State.Moves] using hm

theorem takes_reject {error : SyntaxError} (h : s.place.ahead ≠ .eof) :
    (s.inMode .operator).Takes (E.after (reject error) s) := by
  have hb : (s.place.ahead == .eof) = false := by simpa using h
  simp only [reject, after_bind, val_sees, after_sees, after_report, hb, if_false,
    Bool.false_eq_true]
  intro ha
  simpa using takes_leaf (E := E) (s := (s.inMode .operator).report error) .error ha

@[simp] theorem safe_rejectUnless (stops : KindSet) (error : SyntaxError) :
    E.Safe (rejectUnless stops error) s := by
  simp [rejectUnless]

theorem makes_rejectUnless (stops : KindSet) (error : SyntaxError) :
    s.Makes (E.after (rejectUnless stops error) s) := by
  simp only [rejectUnless, after_bind, val_peek, after_peek, after_ite]
  split
  · exact makes_missing error
  · exact makes_reject error

@[simp] theorem endsInNode_rejectUnless (stops : KindSet) (error : SyntaxError) :
    (E.after (rejectUnless stops error) s).EndsInNode := (makes_rejectUnless stops error).endsInNode

theorem moves_rejectUnless {stops : KindSet} {error : SyntaxError}
    (hs : stops.contains s.place.ahead = false) (h : s.place.ahead ≠ .eof) :
    s.Moves (E.after (rejectUnless stops error) s) := by
  have hb : (s.place.ahead == .eof) = false := by simpa using h
  simp only [rejectUnless, after_bind, val_peek, after_peek, hs, hb, Bool.or_self,
    if_false, Bool.false_eq_true]
  exact State.moves_inMode.1 (moves_reject h)

/-! ## Expecting -/

@[simp] theorem val_expectIn (mode : Mode) (kind : Kind) :
    E.val (expectIn mode kind) s = ((s.place.next mode).1.kind == kind) := by
  simp only [expectIn, val_bind, val_seesIn, val_ite, val_pure]
  split <;> simp_all

@[simp] theorem safe_expectIn {mode : Mode} {kind : Kind} (hk : kind ≠ .eof) :
    E.Safe (expectIn mode kind) s := by
  simp only [expectIn, safe_bind, safe_seesIn, val_seesIn, after_seesIn, safe_ite, safe_take,
    safe_pure, safe_missing, and_true, true_and, implies_true, beq_iff_eq]
  rintro rfl -
  exact hk

@[simp] theorem safe_expect {kind : Kind} (hk : kind ≠ .eof) : E.Safe (expect kind) s := by
  simp [expect, hk]

@[simp] theorem safe_expectWord {keyword : Kind} (hk : keyword.isKeyword = true) :
    E.Safe (expectWord keyword) s := by
  simp [expectWord, hk]

/-! ## Rules -/

@[simp] theorem endsInNode_apply (rule : Rule) : (E.apply rule s).EndsInNode :=
  (E.makes rule s).endsInNode

@[simp] theorem after_callIn (field : Field) (rule : Rule) :
    E.after (callIn field rule) s = (E.apply rule s).labelLast field := (rfl)

@[simp] theorem safe_callIn {field : Field} {rule : Rule} :
    E.Safe (callIn field rule) s ↔ rule.Ready s := by
  simp [callIn]

theorem moves_callIn {field : Field} {rule : Rule} (hr : rule.Ready s) (hs : rule.Starts s) :
    s.Moves (E.after (callIn field rule) s) := by
  have := E.moves rule s hr hs
  simpa [State.Moves] using this

end Setting

end ActionScript
