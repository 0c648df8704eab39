import ActionScript.Grammar.Recovery
import ActionScript.Proofs.Run

/-!
# Parsers in a setting

A setting fixes the limits and what the rules do, together with what all rules are known to do:
they lead on, each makes exactly one node, and each moves on unless it stands before a token that
it leaves to others.  In a setting a parser has a value and a state behind it (`Setting.val`,
`Setting.after`), given by one equation per instruction.  The equations hold by definition but are
not offered as such to the simplifier, which would then leave the conditions of a choice behind.

* `Setting.leads_after`: every parser leads on.
* `Setting.Safe`: along a run no token is taken at the end of the text, a keyword is only taken
  where its word stands, slots are only given to nodes, a node around another gets a child of its
  own before all else, requirements are met, and every repetition moves on.
* `Setting.Safe.loop`, `Setting.Runs.loop`: repetitions by an invariant.
-/

set_option autoImplicit false

namespace ActionScript

/-- The kind of the token at a place, as it is read after an operand. -/
def Place.ahead [Alphabet] (p : Place) : Kind := (p.next .operator).1.kind

@[simp] theorem Place.next_operator_kind [Alphabet] (p : Place) :
    (p.next .operator).1.kind = p.ahead := (rfl)

theorem Place.rest_ne_nil_of_ahead [Alphabet] {p : Place} (h : p.ahead ≠ .eof) : p.rest ≠ [] :=
  rest_ne_nil h

/-- Most tokens are read alike before an operand and after one. -/
theorem Place.ahead_of_exprStart [Alphabet] {p : Place} {k : Kind}
    (h : (p.next .exprStart).1.kind = k)
    (hk : k ∉ Code.beforeOperand) : p.ahead = k := by
  subst h
  rw [← next_operator_kind, next_exprStart_eq hk]

theorem Place.exprStart_of_ahead [Alphabet] {p : Place} {k : Kind} (h : p.ahead = k)
    (hk : k ∉ Code.afterOperand) : (p.next .exprStart).1.kind = k := by
  subst h
  rw [next_operator_eq hk, next_operator_kind]

@[simp] theorem State.hasToken_inMode [Alphabet] {s : State} :
    (s.inMode .operator).HasToken ↔ (s.aborted = none → s.place.ahead ≠ .eof) := (Iff.rfl)

/-- Is a token the word for a keyword? -/
def Token.IsWordFor (keyword : Kind) (t : Token) : Prop :=
  t.kind = .name ∧ keyword.isKeyword = true ∧ keyword.spells t.text = true

theorem Glimpse.isWord_iff {t : Token} {word : String} :
    (State.glimpse t).isWord word = true ↔ t.kind = .name ∧ t.text = word.toList := by
  simp [Glimpse.isWord, State.glimpse]

/-- A token with the text of a keyword is the word for it. -/
theorem Token.IsWordFor.of_isWord {keyword : Kind} {word : String} {t : Token}
    (h : (State.glimpse t).isWord word = true) (hk : keyword.isKeyword = true)
    (hs : keyword.spelling = some word) : t.IsWordFor keyword := by
  obtain ⟨hkind, htext⟩ := Glimpse.isWord_iff.1 h
  exact ⟨hkind, hk, by simp [Kind.spells, hs, htext]⟩

/-- A name that is found among the keywords is the word for the one found. -/
theorem Token.IsWordFor.of_ofWord {keyword : Kind} {t : Token} (hkind : t.kind = .name)
    (h : Kind.ofWord? t.text = some keyword) : t.IsWordFor keyword := by
  have hmem := List.mem_of_find?_eq_some h
  have hspells := List.find?_some h
  exact ⟨hkind, (List.mem_filter.1 hmem).2, hspells⟩

theorem Token.IsWordFor.kind_ne_eof {keyword : Kind} {t : Token} (h : t.IsWordFor keyword) :
    t.kind ≠ .eof := by
  rw [h.1]
  decide

/-- The tokens that an operand leaves to others. -/
def Grammar.operandStops : KindSet := (KindSet.ofList [.comma, .colon]).union closers

namespace Rule

/-- What a rule relies on where it is called. -/
def Ready [Alphabet] : Rule → State → Prop
  | .construction, s => s.Sees (Token.IsWordFor .newKw)
  | .element, s => s.HasToken
  | _, _ => True

/-- Where a rule is sure to move on. -/
def Starts [Alphabet] : Rule → State → Prop
  | .statement, s => s.place.ahead ≠ .eof ∧ s.place.ahead ≠ .rCurly
  | .expression min r, s => Grammar.operandStops.contains s.place.ahead = false ∨
      (s.place.ahead = .comma ∧ min = .comma ∧ r.noSequence = false)
  | .unary, s => Grammar.operandStops.contains s.place.ahead = false
  | .construction, s | .element, s => s.token.kind ≠ .eof ∧ s.place.ahead ≠ .eof
  | .type, _ => False

end Rule

/-- What parsers run in: limits, and rules that behave. -/
structure Setting [Alphabet] where
  limits : Limits
  apply : Rule → State → State
  leads : ∀ (rule : Rule) (s : State), s.Leads (apply rule s)
  makes : ∀ (rule : Rule) (s : State), s.Makes (apply rule s)
  moves : ∀ (rule : Rule) (s : State), rule.Ready s → rule.Starts s → s.Moves (apply rule s)

namespace Setting

variable [Alphabet] (E : Setting) {α β : Type}

/-- The value of a parser. -/
def val (p : Parser α) (s : State) : α := (p.exec E.limits E.apply s).1

/-- The state behind a parser. -/
def after (p : Parser α) (s : State) : State := (p.exec E.limits E.apply s).2

/-! ## Instructions -/

section
variable (s : State)

@[simp] theorem val_pure (a : α) : E.val (pure a) s = a := (rfl)
@[simp] theorem after_pure (a : α) : E.after (pure a) s = s := (rfl)
@[simp] theorem val_bind (p : Parser β) (f : β → Parser α) :
    E.val (p >>= f) s = E.val (f (E.val p s)) (E.after p s) := (rfl)
@[simp] theorem after_bind (p : Parser β) (f : β → Parser α) :
    E.after (p >>= f) s = E.after (f (E.val p s)) (E.after p s) := (rfl)
omit [Alphabet] in
@[simp] theorem glimpse_kind (t : Token) : (State.glimpse t).kind = t.kind := (rfl)
omit [Alphabet] in
@[simp] theorem glimpse_text (t : Token) : (State.glimpse t).text = t.text := (rfl)
@[simp] theorem val_look (mode : Mode) :
    E.val (.look mode) s = State.glimpse (s.place.next mode).1 := (rfl)
@[simp] theorem after_look (mode : Mode) : E.after (.look mode) s = s.inMode mode := (rfl)
@[simp] theorem val_ahead (n : Nat) :
    E.val (.ahead n) s = State.glimpse (State.tokenAhead n s.place) := (rfl)
@[simp] theorem after_ahead (n : Nat) : E.after (.ahead n) s = s.inMode .operator := (rfl)
@[simp] theorem after_take (field : Option Field) :
    E.after (.take field) s = s.takeAs E.limits s.token.kind field := (rfl)
@[simp] theorem after_takeWord (keyword : Kind) (field : Option Field) :
    E.after (.takeWord keyword field) s = s.takeAs E.limits keyword field := (rfl)
@[simp] theorem after_report (error : SyntaxError) :
    E.after (.report error) s = s.report error := (rfl)
@[simp] theorem val_node (body : Parser (Kind × α)) :
    E.val (.node body) s = (E.val body (s.enter E.limits [])).2 := (rfl)
@[simp] theorem after_node (body : Parser (Kind × α)) :
    E.after (.node body) s =
      (E.after body (s.enter E.limits [])).close s.children
        (E.val body (s.enter E.limits [])).1 := (rfl)
@[simp] theorem after_label (field : Field) : E.after (.label field) s = s.labelLast field := (rfl)
@[simp] theorem after_call (rule : Rule) : E.after (.call rule) s = E.apply rule s := (rfl)

theorem after_wrap (field : Field) (body : Parser Kind) :
    E.after (.wrap field body) s =
      (E.after body (s.enter E.limits ((s.children.take 1).map (Shape.withField field)))).close
        (s.children.drop 1)
        (E.val body (s.enter E.limits ((s.children.take 1).map (Shape.withField field)))) := (rfl)

theorem after_loop (body : Parser Bool) :
    E.after (.loop body) s =
      State.repeatWhile (fun t => (E.val body t, E.after body t)) (s.place.rest.length + 1) s :=
  (rfl)

@[simp] theorem val_ite (c : Prop) [Decidable c] (p q : Parser α) :
    E.val (if c then p else q) s = if c then E.val p s else E.val q s := by
  split <;> rfl

@[simp] theorem after_ite (c : Prop) [Decidable c] (p q : Parser α) :
    E.after (if c then p else q) s = if c then E.after p s else E.after q s := by
  split <;> rfl

end

/-- **Every parser leads on**, whatever it is made of. -/
theorem leads_after (p : Parser α) (s : State) : s.Leads (E.after p s) := by
  induction p generalizing s with
  | done value => exact .refl s
  | andThen first next ihFirst ihNext => exact (ihFirst s).trans (ihNext _ _)
  | look mode => exact .inMode s mode
  | ahead distance => exact .inMode s .operator
  | take field => exact .takeAs s _ _ _
  | takeWord keyword field => exact .takeAs s _ _ _
  | report error => exact .report s error
  | node body ih => exact ((State.Leads.enter s _ _).trans (ih _)).close _ _
  | wrap field body ih => exact ((State.Leads.enter s _ _).trans (ih _)).close _ _
  | label field => exact .labelLast s field
  | loop body ih => exact .repeatWhile ih _ s
  | call rule => exact E.leads rule s
  | require mode kind => exact .of_eq rfl rfl rfl

/-! ## Safe runs -/

end Setting

namespace Parser

/-- The instruction leaves the open node as it is. -/
def IsIdle : {α : Type} → Parser α → Prop
  | _, .done _ | _, .look _ | _, .ahead _ | _, .report _ | _, .require .. => True
  | _, _ => False

/-- What the parser does first to the open node is to add a child. -/
def Begins : {α : Type} → Parser α → Prop
  | _, .andThen first next => Begins first ∨ (first.IsIdle ∧ ∀ value, Begins (next value))
  | _, .take _ | _, .takeWord .. | _, .node _ => True
  | _, _ => False

theorem Begins.ite {α : Type} {c : Prop} [Decidable c] {p q : Parser α} (hp : p.Begins)
    (hq : q.Begins) : (if c then p else q).Begins := by
  split
  · exact hp
  · exact hq

end Parser

namespace Setting

variable [Alphabet] (E : Setting) {α β : Type}

/-- Each time a step goes on it was safe and has moved on, and it stops within the limit. -/
def Proceeds (safe : State → Prop) (step : State → Bool × State) : (limit : Nat) → State → Prop
  | 0, _ => False
  | limit + 1, s =>
    safe s ∧ ((step s).1 = true → s.Moves (step s).2 ∧ Proceeds safe step limit (step s).2)

/-- Along the run of a parser every instruction is used as it is meant to be. -/
def Safe : {α : Type} → Parser α → State → Prop
  | _, .done _, _ => True
  | _, .andThen first next, s => Safe first s ∧ Safe (next (E.val first s)) (E.after first s)
  | _, .look _, _ => True
  | _, .ahead _, _ => True
  | _, .take _, s => s.HasToken
  | _, .takeWord keyword _, s => s.Sees (Token.IsWordFor keyword)
  | _, .report _, _ => True
  | _, .node body, s => Safe body (s.enter E.limits [])
  | _, .wrap field body, s => s.EndsInNode ∧ body.Begins ∧
      Safe body (s.enter E.limits ((s.children.take 1).map (Shape.withField field)))
  | _, .label _, s => s.EndsInNode
  | _, .loop body, s =>
    Proceeds (Safe body) (fun t => (E.val body t, E.after body t)) (s.place.rest.length + 1) s
  | _, .call rule, s => rule.Ready s
  | _, .require mode kind, s => (s.inMode mode).Finds (·.kind = kind)

section
variable {E} {s : State}

@[simp] theorem safe_pure (a : α) : E.Safe (pure a) s := trivial
@[simp] theorem safe_bind {p : Parser β} {f : β → Parser α} :
    E.Safe (p >>= f) s ↔ E.Safe p s ∧ E.Safe (f (E.val p s)) (E.after p s) := Iff.rfl
@[simp] theorem safe_look (mode : Mode) : E.Safe (.look mode) s := trivial
@[simp] theorem safe_ahead (n : Nat) : E.Safe (.ahead n) s := trivial
@[simp] theorem safe_take {field : Option Field} :
    E.Safe (.take field) s ↔ s.HasToken := Iff.rfl
@[simp] theorem safe_takeWord {keyword : Kind} {field : Option Field} :
    E.Safe (.takeWord keyword field) s ↔ s.Sees (Token.IsWordFor keyword) := Iff.rfl
@[simp] theorem safe_report (error : SyntaxError) : E.Safe (.report error) s := trivial
@[simp] theorem safe_node {body : Parser (Kind × α)} :
    E.Safe (.node body) s ↔ E.Safe body (s.enter E.limits []) := Iff.rfl
@[simp] theorem safe_label {field : Field} : E.Safe (.label field) s ↔ s.EndsInNode := Iff.rfl
@[simp] theorem safe_call {rule : Rule} : E.Safe (.call rule) s ↔ rule.Ready s := Iff.rfl
@[simp] theorem safe_require {mode : Mode} {kind : Kind} :
    E.Safe (.require mode kind) s ↔ (s.inMode mode).Finds (·.kind = kind) := Iff.rfl

/-- A requirement changes nothing that a parser can see. -/
theorem hasToken_require {mode : Mode} {kind : Kind} (h : s.HasToken) :
    (E.after (.require mode kind) s).HasToken := h

@[simp] theorem safe_ite {c : Prop} [Decidable c] {p q : Parser α} :
    E.Safe (if c then p else q) s ↔ (c → E.Safe p s) ∧ (¬c → E.Safe q s) := by
  split <;> simp [*]

end

/-! ## Runs with an outcome -/

/-- A parser runs safely, with a value and a state behind it that are as `Q` says. -/
def Runs (p : Parser α) (s : State) (Q : α → State → Prop) : Prop :=
  E.Safe p s ∧ Q (E.val p s) (E.after p s)

section
variable {E} {s : State}

@[simp] theorem runs_pure {a : α} {Q : α → State → Prop} : E.Runs (pure a) s Q ↔ Q a s := by
  simp [Runs]

@[simp] theorem runs_bind {p : Parser β} {f : β → Parser α} {Q : α → State → Prop} :
    E.Runs (p >>= f) s Q ↔ E.Runs p s fun b t => E.Runs (f b) t Q := by
  simp [Runs, and_assoc]

@[simp] theorem runs_look {mode : Mode} {Q : Glimpse → State → Prop} :
    E.Runs (.look mode) s Q ↔ Q (State.glimpse (s.place.next mode).1) (s.inMode mode) := by
  simp [Runs]

@[simp] theorem runs_ahead {n : Nat} {Q : Glimpse → State → Prop} :
    E.Runs (.ahead n) s Q ↔
      Q (State.glimpse (State.tokenAhead n s.place)) (s.inMode .operator) := by
  simp [Runs]

theorem runs_take {field : Option Field} {Q : Unit → State → Prop} :
    E.Runs (.take field) s Q ↔
      s.HasToken ∧ Q () (s.takeAs E.limits s.token.kind field) := Iff.rfl

@[simp] theorem runs_ite {c : Prop} [Decidable c] {p q : Parser α} {Q : α → State → Prop} :
    E.Runs (if c then p else q) s Q ↔ (c → E.Runs p s Q) ∧ (¬c → E.Runs q s Q) := by
  split <;> simp [*]

@[simp] theorem runs_report {error : SyntaxError} {Q : Unit → State → Prop} :
    E.Runs (.report error) s Q ↔ Q () (s.report error) := by
  simp [Runs]

theorem safe_iff_runs {p : Parser α} : E.Safe p s ↔ E.Runs p s fun _ _ => True := by
  simp [Runs]

theorem Runs.mono {p : Parser α} {P Q : α → State → Prop} (h : E.Runs p s P)
    (hpq : ∀ a t, s.Leads t → P a t → Q a t) : E.Runs p s Q :=
  ⟨h.1, hpq _ _ (E.leads_after p s) h.2⟩

theorem Safe.runs {p : Parser α} {Q : α → State → Prop} (h : E.Safe p s)
    (hq : ∀ a t, s.Leads t → Q a t) : E.Runs p s Q :=
  ⟨h, hq _ _ (E.leads_after p s)⟩

end

/-! ## Repetitions -/

omit [Alphabet] in
theorem noteStall_of_moves {s t : State} (h : s.Moves t) : s.noteStall t = t := by
  have : ¬t.place.offset ≤ s.place.offset := Nat.not_le.2 h
  simp [State.noteStall, this]

section
variable {safe I : State → Prop} {step : State → Bool × State}

omit [Alphabet] in
/-- A step that keeps an invariant and moves on whenever it goes on stops in time: each time there
is less left of the text. -/
theorem Proceeds.of_invariant (hlead : ∀ t : State, t.Leads (step t).2)
    (hstep : ∀ t, I t → safe t ∧ ((step t).1 = true → t.Moves (step t).2 ∧ I (step t).2)) :
    ∀ (limit : Nat) (s : State), s.place.rest.length < limit → I s → Proceeds safe step limit s
  | 0, _, hlt, _ => absurd hlt (Nat.not_lt_zero _)
  | limit + 1, s, hlt, hs => by
    obtain ⟨hsafe, hgo⟩ := hstep s hs
    refine ⟨hsafe, fun htrue => ?_⟩
    obtain ⟨hmoves, hinv⟩ := hgo htrue
    have hless := (hlead s).place.length_lt hmoves
    exact ⟨hmoves, of_invariant hlead hstep limit _ (by omega) hinv⟩

omit [Alphabet] in
/-- A repetition that proceeds ends with the first step that does not go on. -/
theorem Proceeds.exists_exit
    (hstep : ∀ t, I t → (step t).1 = true → I (step t).2) :
    ∀ {limit : Nat} {s : State}, Proceeds safe step limit s → I s →
      ∃ t, I t ∧ (step t).1 = false ∧ State.repeatWhile step limit s = (step t).2
  | 0, _, h, _ => h.elim
  | limit + 1, s, h, hs => by
    obtain ⟨hsafe, hgo⟩ := h
    rw [State.repeatWhile]
    split
    · rename_i t ht
      rw [ht] at hgo
      obtain ⟨hmoves, hrest⟩ := hgo rfl
      have hinv := hstep s hs (by rw [ht])
      rw [ht] at hinv
      rw [noteStall_of_moves hmoves]
      exact exists_exit hstep hrest hinv
    · rename_i t ht
      exact ⟨s, hs, by rw [ht], by rw [ht]⟩

end

variable {E} {body : Parser Bool} {s : State}

/-- What each step keeps, a repetition keeps. -/
theorem after_loop_induct (I : State → Prop) (hs : I s)
    (hstall : ∀ (t : State) (stalled : Bool), I t → I { t with stalled })
    (hbody : ∀ t, I t → I (E.after body t)) : I (E.after (.loop body) s) := by
  rw [after_loop]
  generalize s.place.rest.length + 1 = limit
  induction limit generalizing s with
  | zero => exact hstall s true hs
  | succ limit ih =>
    have hstep := hbody s hs
    rw [State.repeatWhile]
    split
    · rename_i t ht
      rw [(Prod.mk.inj ht).2] at hstep
      exact ih (hstall _ _ hstep)
    · rename_i t ht
      rw [(Prod.mk.inj ht).2] at hstep
      exact hstep

/-- A repetition moves on if its first step does. -/
theorem moves_loop (h : s.Moves (E.after body s)) : s.Moves (E.after (.loop body) s) := by
  rw [after_loop, State.repeatWhile]
  split
  · rename_i t ht
    rw [(Prod.mk.inj ht).2] at h
    have hlead : (s.noteStall t).Leads _ := .repeatWhile (fun u => E.leads_after body u)
      s.place.rest.length (s.noteStall t)
    exact State.Moves.trans_leads (t := s.noteStall t) h hlead
  · rename_i t ht
    rw [(Prod.mk.inj ht).2] at h
    exact h

/-- **Repetitions by an invariant.** -/
theorem Safe.loop (I : State → Prop) (hs : I s)
    (hbody : ∀ t, I t → E.Runs body t fun goesOn u => goesOn = true → t.Moves u ∧ I u) :
    E.Safe (.loop body) s :=
  Proceeds.of_invariant (fun t => E.leads_after body t) hbody _ s (Nat.lt_succ_self _) hs

/-- Repetitions whose steps need to know nothing. -/
theorem Safe.loop' (hbody : ∀ t, E.Runs body t fun goesOn u => goesOn = true → t.Moves u) :
    E.Safe (.loop body) s :=
  Safe.loop (fun _ => True) trivial fun t _ =>
    (hbody t).mono fun _ _ _ h hon => ⟨h hon, trivial⟩

/-- **Repetitions by an invariant, with an outcome**: that of the step that does not go on. -/
theorem Runs.loop {Q : State → Prop} (I : State → Prop) (hs : I s)
    (hbody : ∀ t, I t → E.Runs body t fun goesOn u =>
      (goesOn = true → t.Moves u ∧ I u) ∧ (goesOn = false → Q u)) :
    E.Runs (.loop body) s fun _ u => Q u := by
  have hsafe : E.Safe (.loop body) s :=
    Safe.loop I hs fun t ht => (hbody t ht).mono fun _ _ _ h => h.1
  obtain ⟨t, ht, hfalse, hafter⟩ := Proceeds.exists_exit
    (fun t ht htrue => ((hbody t ht).2.1 htrue).2) hsafe hs
  have hafter : E.after (.loop body) s = E.after body t := hafter
  refine ⟨hsafe, ?_⟩
  rw [hafter]
  exact (hbody t ht).2.2 hfalse

end Setting

end ActionScript
