import ActionScript.Proofs.Plain

/-!
# Reports pay for error nodes

An error node is made behind the report that explains it, or of a token without a reading, whose
flaw is reported when it is taken.  What a parser knows to be reported but has not used yet is its
*credit*.  A parser that pays makes error nodes on credit only, which is seen from its text.

* `Parser.credit`, `Parser.Pays`, `Parser.Ends`: how credit is come by and what it is spent on.
* `State.Accounts`: from one state to another no more error nodes are made than there are reports.
* `Setting.accounts_after`: **parsers that pay keep the accounts**, if the rules do.
-/

set_option autoImplicit false

namespace ActionScript

/-! ## Tokens without a reading -/

/-- A lexeme without a reading has a flaw. -/
def Lexeme.Admits (l : Lexeme) : Prop := l.kind = .unknown → l.flaw.isSome = true

theorem Lexeme.admits_of_ne {l : Lexeme} (h : l.kind ≠ .unknown) : l.Admits := fun hk => absurd hk h

namespace Code

theorem operator_admits {f : Family} {c : Char} (h : f.isSpelled c = true) (cs : Text) :
    (operator f c cs).Admits := by
  refine Lexeme.admits_of_ne fun hk => ?_
  rw [Family.isSpelled, List.all_eq_true] at h
  have hspelled (more : Text) (kind : Kind) (hm : (more, kind) ∈ ([], f.single) :: f.longer) :
      kind ≠ .unknown := by
    rintro rfl
    have hsign := h _ hm
    rw [Bool.and_eq_true] at hsign
    obtain ⟨w, hw, -⟩ := Kind.eq_of_spells hsign.2
    cases hw
  unfold operator at hk
  split at hk
  · rename_i more kind hm
    exact hspelled more kind (List.mem_cons_of_mem _ (List.mem_of_find?_eq_some hm)) hk
  · exact hspelled [] f.single List.mem_cons_self hk

theorem lexeme_admits [Alphabet] (mode : Mode) (cs : Text) : (lexeme mode cs).Admits := by
  cases cs with
  | nil => exact Lexeme.admits_of_ne (by simp [lexeme])
  | cons c cs =>
    rw [lexeme]
    split
    · exact Lexeme.admits_of_ne (by simp [Number.lexeme])
    · split
      · unfold Quotation.lexeme
        dsimp only
        split
        · exact Lexeme.admits_of_ne (by simp)
        · exact fun _ => rfl
      · split
        · unfold Pattern.lexeme
          split
          · exact Lexeme.admits_of_ne (by simp)
          · exact fun _ => rfl
        · split
          · exact Lexeme.admits_of_ne (by simp)
          · split
            · rename_i f hf
              exact operator_admits (familyIn?_isSpelled hf) cs
            · split
              · refine Lexeme.admits_of_ne ?_
                unfold word
                dsimp only
                split <;> simp
              · exact fun _ => rfl

end Code

namespace Markup

theorem tag_admits [Alphabet] (cs : Text) : (tag cs).Admits := by
  unfold tag
  split
  · exact Lexeme.admits_of_ne (by simp)
  · exact Lexeme.admits_of_ne (by simp)
  · exact Lexeme.admits_of_ne (by simp)
  · rename_i c cs _ _
    have hvalue : (value c cs).Admits := by
      unfold value
      split
      · exact Lexeme.admits_of_ne (by simp)
      · exact fun _ => rfl
    split
    · exact Lexeme.admits_of_ne (by simp)
    · split
      · exact Lexeme.admits_of_ne (by simp)
      · split
        · exact Lexeme.admits_of_ne (by simp)
        · split
          · exact Lexeme.admits_of_ne (by simp)
          · split
            · exact Lexeme.admits_of_ne (by simp)
            · split
              · exact hvalue
              · split
                · exact Lexeme.admits_of_ne (by simp)
                · exact fun _ => rfl

theorem content_admits (cs : Text) : (content cs).Admits := by
  refine Lexeme.admits_of_ne fun hk => ?_
  unfold content at hk
  split at hk
  · rename_i e he
    have hmem := List.mem_of_find?_eq_some he
    rw [enclosed_kind] at hk
    simp only [enclosures, List.mem_cons, List.not_mem_nil, or_false] at hmem
    rcases hmem with rfl | rfl | rfl <;> cases hk
  · split at hk
    · cases hk
    · cases hk
    · split at hk
      · cases hk
      · split at hk
        · cases hk
        · cases hk

end Markup

theorem Place.flaw_of_unknown [Alphabet] {place : Place} {mode : Mode}
    (h : (place.next mode).1.kind = .unknown) : (place.next mode).1.flaw.isSome = true := by
  have hread (cs : Text) : (Lexeme.read mode cs).Admits := by
    cases mode with
    | xmlContent => exact Markup.content_admits cs
    | xmlTag => exact Markup.tag_admits cs
    | operator => exact Code.lexeme_admits .operator cs
    | exprStart => exact Code.lexeme_admits .exprStart cs
    | typeArgs => exact Code.lexeme_admits .typeArgs cs
  have hflaw := hread _ h
  simp [Place.next, hflaw]

/-! ## Counting in shapes -/

namespace Shape

mutual

/-- The sum of what each node and each token of a shape counts for. -/
def tally (node token : Kind → Nat) : Shape → Nat
  | .token kind .. => token kind
  | .node kind _ children => node kind + tallyAll node token children

/-- The sum over several shapes. -/
def tallyAll (node token : Kind → Nat) : List Shape → Nat
  | [] => 0
  | s :: ss => s.tally node token + tallyAll node token ss

end

section
variable (node token : Kind → Nat)

@[simp] theorem tally_withField (f : Field) (s : Shape) :
    (s.withField f).tally node token = s.tally node token := by
  cases s <;> simp [withField, tally]

theorem tallyAll_append (ss ts : List Shape) :
    tallyAll node token (ss ++ ts) = tallyAll node token ss + tallyAll node token ts := by
  induction ss with
  | nil => simp [tallyAll]
  | cons s ss ih =>
    rw [List.cons_append, tallyAll, tallyAll, ih]
    omega

@[simp] theorem tallyAll_reverse (ss : List Shape) :
    tallyAll node token ss.reverse = tallyAll node token ss := by
  induction ss with
  | nil => rfl
  | cons s ss ih =>
    rw [List.reverse_cons, tallyAll_append, ih, tallyAll, tallyAll, tallyAll]
    omega

end

/-- The number of error nodes in several shapes. -/
def errorNodes : List Shape → Nat :=
  tallyAll (fun kind => if kind = .error then 1 else 0) fun _ => 0

/-- The number of tokens without a reading in several shapes. -/
def unknownTokens : List Shape → Nat :=
  tallyAll (fun _ => 0) fun kind => if kind = .unknown then 1 else 0

section
variable (kind : Kind) (field : Option Field) (leading trailing : List Trivia) (text : Text)
  (s : Shape) (ss : List Shape)

@[simp] theorem errorNodes_nil : errorNodes [] = 0 := rfl
@[simp] theorem unknownTokens_nil : unknownTokens [] = 0 := rfl

theorem errorNodes_cons : errorNodes (s :: ss) = errorNodes [s] + errorNodes ss := rfl
theorem unknownTokens_cons : unknownTokens (s :: ss) = unknownTokens [s] + unknownTokens ss := rfl

theorem errorNodes_token : errorNodes [.token kind field leading text trailing] = 0 := rfl
theorem unknownTokens_token : unknownTokens [.token kind field leading text trailing] =
    if kind = .unknown then 1 else 0 := rfl

theorem errorNodes_node :
    errorNodes [.node kind field ss] = (if kind = .error then 1 else 0) + errorNodes ss := rfl
theorem unknownTokens_node : unknownTokens [.node kind field ss] = unknownTokens ss :=
  Nat.zero_add _

end

end Shape

/-! ## Credit -/

/-- What is there to explain an error node with. -/
inductive Credit where
  | nothing
  /-- The next token has no reading, so a report comes with it. -/
  | flaw
  /-- A report that no error node has used. -/
  | report
  deriving DecidableEq

namespace Credit

/-- How many error nodes can be made at once. -/
def worth : Credit → Nat
  | .report => 1
  | _ => 0

@[simp] theorem worth_nothing : worth .nothing = 0 := rfl
@[simp] theorem worth_flaw : worth .flaw = 0 := rfl
@[simp] theorem worth_report : worth .report = 1 := rfl

/-- The credit behind a token. -/
def taken : Credit → Credit
  | .nothing => .nothing
  | _ => .report

/-- The credit that does not depend on the next token. -/
def kept : Credit → Credit
  | .report => .report
  | _ => .nothing

end Credit

namespace Parser

/-- The credit behind a parser that yields the given value. -/
def credit : {α : Type} → Parser α → Credit → α → Credit
  | _, .done _, c, _ => c
  | _, .look _, _, g => if g.kind = .unknown then .flaw else .nothing
  | _, .take _, c, _ => c.taken
  | _, .report _, _, _ => .report
  | _, .loop _, c, _ => c.kept
  | _, _, _, _ => .nothing

/-- If the parser makes out of what it yields that an error node is due, it ends on a report. -/
def Ends : {α : Type} → Parser α → Credit → (α → Kind) → Prop
  | _, .done value, c, kind => kind value = .error → c = .report
  | _, .andThen first next, c, kind => first.Yields fun value =>
      Ends (next value) (first.credit c value) kind
  | _, _, _, _ => False

/-- The parser makes error nodes on credit only, and takes no keyword for a token without a
reading. -/
def Pays : {α : Type} → Parser α → Credit → Prop
  | _, .andThen first next, c => Pays first c ∧ ∀ value, Pays (next value) (first.credit c value)
  | _, .takeWord keyword _, _ => keyword ≠ .unknown
  | _, .node body, c => Pays body c ∧ body.Ends c Prod.fst
  | _, .wrap _ body, c => Pays body c ∧ body.Ends c id
  | _, .loop body, _ => Pays body .nothing
  | _, _, _ => True

end Parser

/-! ## Accounts -/

namespace State

/-- The number of reports on flawed tokens. -/
def lexical (s : State) : Nat := s.reports.countP (·.cause.category == .lexical)

variable [Alphabet]

/-- The state has the credit. -/
def Has (s : State) (c : Credit) : Prop := c = .flaw → s.token.kind = .unknown

/-- From `s` with credit `c` to `t` with credit `d` the error nodes made are covered by reports and
credit, and the tokens without a reading by reports on flawed tokens. -/
structure Accounts (s : State) (c : Credit) (t : State) (d : Credit) : Prop where
  has : t.Has d
  errors : Shape.errorNodes t.children + d.worth + s.reports.length ≤
    Shape.errorNodes s.children + c.worth + t.reports.length
  unknowns : Shape.unknownTokens t.children + s.lexical ≤
    Shape.unknownTokens s.children + t.lexical

namespace Accounts

variable {s t u : State} {c d e : Credit}

theorem trans (h₁ : s.Accounts c t d) (h₂ : t.Accounts d u e) : s.Accounts c u e := by
  obtain ⟨-, herrors₁, hunknowns₁⟩ := h₁
  obtain ⟨hhas, herrors₂, hunknowns₂⟩ := h₂
  exact ⟨hhas, by omega, by omega⟩

theorem has_nothing (s : State) : s.Has .nothing := fun h => (by cases h)

theorem has_report (s : State) : s.Has .report := fun h => (by cases h)

/-- Credit can be left unused. -/
theorem drop (h : s.Accounts c t d) : s.Accounts c t .nothing := by
  obtain ⟨-, herrors, hunknowns⟩ := h
  refine ⟨has_nothing t, ?_, hunknowns⟩
  rw [Credit.worth_nothing]
  omega

/-- A report that is not needed stays. -/
theorem keep (h : s.Accounts .nothing t .nothing) (c : Credit) : s.Accounts c t c.kept := by
  obtain ⟨-, herrors, hunknowns⟩ := h
  rw [Credit.worth_nothing] at herrors
  refine ⟨?_, ?_, hunknowns⟩
  · cases c with
    | report => exact has_report t
    | _ => exact has_nothing t
  · cases c <;> simp only [Credit.kept, Credit.worth_report, Credit.worth_nothing] <;> omega

/-- Nothing is made and nothing is reported. -/
theorem of_eq (hc : t.children = s.children) (hr : t.reports = s.reports) (hhas : t.Has d)
    (hworth : d.worth ≤ c.worth) : s.Accounts c t d := by
  refine ⟨hhas, ?_, ?_⟩
  · rw [hc, hr]
    omega
  · exact Nat.le_of_eq (by rw [lexical, lexical, hc, hr])

end Accounts

namespace Accounts

variable {s t : State} {c : Credit} {limits : Limits} {kind : Kind}

/-- A token without a reading has its report. -/
theorem takeAs (hs : s.Has c) (hkind : kind = .unknown → s.token.kind = .unknown)
    (field : Option Field) : s.Accounts c (s.takeAs limits kind field) c.taken := by
  have hreported (h : s.token.kind = .unknown) :
      (s.takeAs limits kind field).reports.length = s.reports.length + 1 ∧
        (s.takeAs limits kind field).lexical = s.lexical + 1 := by
    obtain ⟨flaw, hflaw⟩ := Option.isSome_iff_exists.1 (Place.flaw_of_unknown h)
    have hsome : s.token.flaw = some flaw := hflaw
    rw [lexical, takeAs_reports_eq, Token.report?, hsome]
    exact ⟨rfl, List.countP_cons_of_pos rfl⟩
  have hlength := (s.takeAs_reports limits kind field).length_le
  have hlexical : s.lexical ≤ (s.takeAs limits kind field).lexical :=
    (s.takeAs_reports limits kind field).sublist.countP_le
  refine ⟨?_, ?_, ?_⟩
  · cases c with
    | nothing => exact has_nothing _
    | flaw => exact has_report _
    | report => exact has_report _
  · rw [takeAs_children, Shape.errorNodes_cons, Shape.errorNodes_token, Nat.zero_add]
    cases c with
    | nothing =>
      simp only [Credit.taken, Credit.worth_nothing]
      omega
    | flaw =>
      have := (hreported (hs rfl)).1
      simp only [Credit.taken, Credit.worth_flaw, Credit.worth_report]
      omega
    | report =>
      simp only [Credit.taken, Credit.worth_report]
      omega
  · rw [takeAs_children, Shape.unknownTokens_cons, Shape.unknownTokens_token]
    split
    · rename_i hk
      have := (hreported (hkind hk)).2
      omega
    · omega

theorem report (ha : s.aborted = none) (error : SyntaxError) :
    s.Accounts c (s.report error) .report := by
  have hreports : (s.report error).reports = ⟨.syntactic error, s.token.span⟩ :: s.reports := by
    simp only [State.report, ha]
  refine ⟨has_report _, ?_, ?_⟩
  · rw [hreports, report_children, Credit.worth_report, List.length_cons]
    omega
  · have hsort : (Cause.syntactic error).category ≠ .lexical := by simp [Cause.category]
    refine Nat.le_of_eq ?_
    rw [lexical, lexical, hreports, report_children, List.countP_cons_of_neg (by simpa using hsort)]

theorem labelLast (s : State) (field : Field) :
    s.Accounts .nothing (s.labelLast field) .nothing := by
  have hchildren (node token : Kind → Nat) :
      Shape.tallyAll node token (s.labelLast field).children =
        Shape.tallyAll node token s.children := by
    cases hs : s.children with
    | nil => simp [State.labelLast, hs]
    | cons child outer =>
      rw [labelLast_children s field hs, Shape.tallyAll, Shape.tallyAll, Shape.tally_withField]
  refine ⟨has_nothing _, ?_, ?_⟩
  · exact Nat.le_of_eq (by rw [Shape.errorNodes, hchildren, labelLast_reports])
  · exact Nat.le_of_eq (by
      rw [Shape.unknownTokens, hchildren, lexical, lexical, labelLast_reports])

/-- A node uses the credit if it is an error node. -/
theorem close {inner outer : List Shape}
    (hchildren : ∀ node token, Shape.tallyAll node token inner +
      Shape.tallyAll node token outer = Shape.tallyAll node token s.children)
    (h : (s.enter limits inner).Accounts c t (if kind = .error then .report else .nothing)) :
    s.Accounts c (t.close outer kind) .nothing := by
  obtain ⟨-, herrors, hunknowns⟩ := h
  rw [enter_children, enter_reports] at herrors
  rw [lexical, enter_children, enter_reports] at hunknowns
  refine ⟨has_nothing _, ?_, ?_⟩
  · have hsum := hchildren (fun kind => if kind = .error then 1 else 0) fun _ => 0
    simp only [close_children, close_reports, Shape.errorNodes, Shape.tallyAll, Shape.tally,
      Shape.tallyAll_reverse] at herrors ⊢
    by_cases hk : kind = .error
    · rw [if_pos hk, Credit.worth_report] at herrors
      rw [if_pos hk, Credit.worth_nothing]
      omega
    · rw [if_neg hk, Credit.worth_nothing] at herrors
      rw [if_neg hk, Credit.worth_nothing]
      omega
  · have hsum := hchildren (fun _ => 0) fun kind => if kind = .unknown then 1 else 0
    rw [close_children, lexical, lexical, close_reports, Shape.unknownTokens, Shape.tallyAll,
      Shape.tally, Shape.tallyAll_reverse]
    unfold Shape.unknownTokens lexical at hunknowns
    omega

end Accounts

/-- In a node that is entered the next token is still the same. -/
theorem Has.enter {s : State} {c : Credit} (h : s.Has c) {limits : Limits} {children : List Shape}
    (ha : (s.enter limits children).aborted = none) : (s.enter limits children).Has c := by
  intro hc
  rcases s.enter_cases limits children with ⟨hp, hm, -⟩ | ⟨hna, -⟩
  · rw [token, hp, hm]
    exact h hc
  · exact absurd ha hna

end State

/-! ## Keeping the accounts -/

namespace Setting

variable [Alphabet]

/-- The rules keep the accounts. -/
def Solvent (E : Setting) : Prop :=
  ∀ (rule : Rule) (s : State), (E.apply rule s).aborted = none →
    s.Accounts .nothing (E.apply rule s) .nothing

variable {E : Setting} {α : Type}

/-- **Parsers that pay keep the accounts**, if the rules do. -/
theorem accounts_after (hE : E.Solvent) (p : Parser α) {s : State} {c : Credit} (hs : s.Has c)
    (hp : p.Pays c) (ha : (E.after p s).aborted = none) :
    s.Accounts c (E.after p s) (p.credit c (E.val p s)) ∧
      ∀ kind, p.Ends c kind → s.Accounts c (E.after p s)
        (if kind (E.val p s) = .error then .report else .nothing) := by
  induction p generalizing s c with
  | done value =>
    have hrefl : s.Accounts c s c := .of_eq rfl rfl hs (Nat.le_refl _)
    refine ⟨hrefl, fun kind hends => ?_⟩
    change s.Accounts c s (if kind value = .error then .report else .nothing)
    split
    · rename_i hkind
      rw [← hends hkind]
      exact hrefl
    · exact hrefl.drop
  | andThen first next ihFirst ihNext =>
    have haFirst := (E.leads_after (next (E.val first s)) (E.after first s)).aborted ha
    have hfirst := (ihFirst hs hp.1 haFirst).1
    obtain ⟨hnext, hends⟩ := ihNext _ hfirst.has (hp.2 _) ha
    exact ⟨(hfirst.trans hnext).drop, fun kind hkind => hfirst.trans (hends kind (hkind.val E s))⟩
  | look mode =>
    refine ⟨.of_eq rfl rfl (fun hflaw => ?_) ?_, fun _ h => h.elim⟩
    · simpa [Parser.credit] using hflaw
    · rw [Parser.credit]
      split <;> exact Nat.zero_le _
  | ahead distance =>
    exact ⟨.of_eq rfl rfl (State.Accounts.has_nothing _) (Nat.zero_le _), fun _ h => h.elim⟩
  | take field => exact ⟨.takeAs hs id field, fun _ h => h.elim⟩
  | takeWord keyword field =>
    exact ⟨(State.Accounts.takeAs hs (fun h => absurd h hp) field).drop, fun _ h => h.elim⟩
  | report error => exact ⟨.report (by simpa using ha) error, fun _ h => h.elim⟩
  | node body ih =>
    refine ⟨?_, fun _ h => h.elim⟩
    have haEnter := (E.leads_after body (s.enter E.limits [])).aborted ha
    obtain ⟨-, hends⟩ := ih (hs.enter haEnter) hp.1 ha
    exact .close (fun _ _ => Nat.zero_add _) (hends _ hp.2)
  | wrap field body ih =>
    refine ⟨?_, fun _ h => h.elim⟩
    have haEnter := (E.leads_after body _).aborted ha
    obtain ⟨-, hends⟩ := ih (hs.enter haEnter) hp.1 ha
    refine .close (fun node token => ?_) (hends _ hp.2)
    cases s.children with
    | nil => rfl
    | cons child outer => simp [Shape.tallyAll]
  | label field =>
    exact ⟨(State.Accounts.labelLast s field).keep c |>.drop, fun _ h => h.elim⟩
  | loop body ih =>
    refine ⟨?_, fun _ h => h.elim⟩
    have hstart : s.Accounts .nothing s .nothing :=
      .of_eq rfl rfl (State.Accounts.has_nothing s) (Nat.le_refl _)
    have hloop : (E.after (.loop body) s).aborted = none →
        s.Accounts .nothing (E.after (.loop body) s) .nothing := by
      refine after_loop_induct
        (fun t => t.aborted = none → s.Accounts .nothing t .nothing) (fun _ => hstart)
        (fun t _ ht ha => ⟨State.Accounts.has_nothing _, (ht ha).errors, (ht ha).unknowns⟩)
        fun t ht ha => ?_
      have hbefore := ht ((E.leads_after body t).aborted ha)
      exact hbefore.trans (ih (State.Accounts.has_nothing t) hp ha).1.drop
    exact (hloop ha).keep c
  | call rule => exact ⟨((hE rule s ha).keep c).drop, fun _ h => h.elim⟩
  | require mode kind =>
    exact ⟨.of_eq rfl rfl (State.Accounts.has_nothing _) (Nat.zero_le _), fun _ h => h.elim⟩

end Setting

/-! ## Instructions -/

namespace Parser

section
variable {α β : Type} {c : Credit}

@[simp] theorem credit_pure (a b : α) : (pure a : Parser α).credit c b = c := rfl
@[simp] theorem credit_take (field : Option Field) (u : Unit) : (take field).credit c u = c.taken :=
  rfl
@[simp] theorem credit_report (error : SyntaxError) (u : Unit) :
    (report error).credit c u = .report := rfl
@[simp] theorem credit_loop (body : Parser Bool) (u : Unit) : (loop body).credit c u = c.kept := rfl

@[simp] theorem pays_pure (a : α) : (pure a : Parser α).Pays c := trivial
@[simp] theorem pays_bind {p : Parser β} {f : β → Parser α} :
    (p >>= f).Pays c ↔ p.Pays c ∧ ∀ value, (f value).Pays (p.credit c value) := Iff.rfl
@[simp] theorem pays_look (mode : Mode) : (look mode).Pays c := trivial
@[simp] theorem pays_ahead (n : Nat) : (ahead n).Pays c := trivial
@[simp] theorem pays_take (field : Option Field) : (take field).Pays c := trivial
@[simp] theorem pays_takeWord {keyword : Kind} {field : Option Field} :
    (takeWord keyword field).Pays c ↔ keyword ≠ .unknown := Iff.rfl
@[simp] theorem pays_report (error : SyntaxError) : (report error).Pays c := trivial
@[simp] theorem pays_label (field : Field) : (label field).Pays c := trivial
@[simp] theorem pays_loop {body : Parser Bool} : (loop body).Pays c ↔ body.Pays .nothing := Iff.rfl
@[simp] theorem pays_call (rule : Rule) : (call rule).Pays c := trivial
@[simp] theorem pays_require (mode : Mode) (kind : Kind) : (require mode kind).Pays c := trivial
@[simp] theorem pays_node {body : Parser (Kind × α)} :
    (node body).Pays c ↔ body.Pays c ∧ body.Ends c Prod.fst := Iff.rfl
@[simp] theorem pays_wrap {field : Field} {body : Parser Kind} :
    (wrap field body).Pays c ↔ body.Pays c ∧ body.Ends c id := Iff.rfl

@[simp] theorem pays_ite {cond : Prop} [Decidable cond] {p q : Parser α} :
    (if cond then p else q).Pays c ↔ (cond → p.Pays c) ∧ (¬cond → q.Pays c) := by
  split <;> simp [*]

@[simp] theorem pays_when {cond : Bool} {p : Parser Unit} :
    (when cond p).Pays c ↔ (cond = true → p.Pays c) := by
  simp [when]

@[simp] theorem ends_pure {a : α} {kind : α → Kind} :
    (pure a : Parser α).Ends c kind ↔ (kind a = .error → c = .report) := Iff.rfl
@[simp] theorem ends_bind {p : Parser β} {f : β → Parser α} {kind : α → Kind} :
    (p >>= f).Ends c kind ↔ p.Yields fun value => (f value).Ends (p.credit c value) kind := Iff.rfl

@[simp] theorem ends_ite {cond : Prop} [Decidable cond] {p q : Parser α} {kind : α → Kind} :
    (if cond then p else q).Ends c kind ↔ (cond → p.Ends c kind) ∧ (¬cond → q.Ends c kind) := by
  split <;> simp [*]

@[simp] theorem pays_nodeOf {kind : Kind} {body : Parser Unit} :
    (nodeOf kind body).Pays c ↔ body.Pays c ∧ (kind = .error → body.credit c () = .report) := by
  have hends : (body.Yields fun u => kind = .error → body.credit c u = .report) ↔
      (kind = .error → body.credit c () = .report) :=
    yields_const (P := kind = .error → body.credit c () = .report)
  simp [nodeOf, hends]

end

end Parser

end ActionScript
