import ActionScript.Proofs.Printing.Program
import ActionScript.Proofs.Printing.RoundTrip

/-!
# Looking ahead over a printed expression

A statement that begins with a name may be a declaration or have a label, so the tokens behind the
name are looked at before anything is taken.  All tokens of a printed expression are the same read
in operator mode, none of its words leads up to a declaration, and no colon is its second token.

* `Text.glimpseAt`, `Setting.goes_ahead`: what is seen of the token at a distance.
* `Text.IsPlain`, `Expr.isPlain_tokens`: **the tokens of an expression, read without knowing the
  grammar.**
* `Setting.goes_nextDeclaration?`: **no declaration is found where an expression stands.**
-/

set_option autoImplicit false

namespace ActionScript

open ActionScript.Parser ActionScript.Grammar Trivia

/-! ## Tokens at a distance -/

/-- What a parser sees of the token at a distance from the head of a text. -/
def Text.glimpseAt [Alphabet] (i : Nat) (cs : Text) : Glimpse :=
  State.glimpse (State.tokenAhead i (Place.start cs))

/-- What is seen of a token at a distance depends on the text only. -/
theorem State.glimpse_tokenAhead [Alphabet] (i : Nat) (p : Place) :
    State.glimpse (State.tokenAhead i p) = p.rest.glimpseAt i := by
  have hrest : ∀ (i : Nat) (p q : Place), p.rest = q.rest →
      State.glimpse (State.tokenAhead i p) = State.glimpse (State.tokenAhead i q) := by
    intro i
    induction i with
    | zero =>
      rintro ⟨m, cs⟩ ⟨n, ds⟩ (rfl : cs = ds)
      rfl
    | succ i ih =>
      rintro ⟨m, cs⟩ ⟨n, ds⟩ (rfl : cs = ds)
      simp only [State.tokenAhead]
      by_cases heof : ((Place.next ⟨m, cs⟩ .operator).1.kind == .eof) = true
      · have heof' : ((Place.next ⟨n, cs⟩ .operator).1.kind == .eof) = true := heof
        rw [if_pos heof, if_pos heof']
        rfl
      · have heof' : ¬((Place.next ⟨n, cs⟩ .operator).1.kind == .eof) = true := heof
        rw [if_neg heof, if_neg heof']
        exact ih _ _ rfl
  exact hrest i p (Place.start p.rest) rfl

namespace Text

variable {cs ds more text : Text} {kind : Kind} {lead tail : List Trivia} {i : Nat}

variable [Alphabet]

theorem glimpseAt_zero (cs : Text) : cs.glimpseAt 0 = cs.glimpse .operator := rfl

theorem glimpseAt_succ (h : Mode.operator.ReadsBehind lead cs kind text tail more)
    (hkind : kind ≠ .eof) (i : Nat) : cs.glimpseAt (i + 1) = more.glimpseAt i := by
  obtain ⟨htoken, hmore⟩ := h (Place.start cs) rfl
  have hne : ¬((Place.next (Place.start cs) .operator).1.kind == .eof) = true := by
    rw [htoken]
    simpa using hkind
  rw [glimpseAt, State.tokenAhead]
  simp only [hne, if_false, Bool.false_eq_true]
  rw [State.glimpse_tokenAhead, hmore]

/-- From a distance on, a text goes on as another one. -/
def Reaches (cs : Text) (i : Nat) (more : Text) : Prop :=
  ∀ j, cs.glimpseAt (i + j) = more.glimpseAt j

theorem Reaches.glimpseAt (h : cs.Reaches i ds) : cs.glimpseAt i = ds.glimpse .operator := h 0

theorem reaches_one (h : Mode.operator.ReadsBehind lead cs kind text tail more)
    (hkind : kind ≠ .eof) : cs.Reaches 1 more := by
  intro j
  rw [Nat.add_comm]
  exact glimpseAt_succ h hkind j

theorem Reaches.step (h : cs.Reaches i ds)
    (hread : Mode.operator.ReadsBehind lead ds kind text tail more)
    (hkind : kind ≠ .eof) : cs.Reaches (i + 1) more := by
  intro j
  rw [← glimpseAt_succ hread hkind, ← h (j + 1), Nat.add_assoc, Nat.add_comm 1]

end Text

theorem Setting.goes_ahead [Alphabet] {E : Setting} (i : Nat) (rest : Text) (mode : Mode)
    (made : List Shape) :
    E.Goes (.ahead i) ⟨rest, mode, made⟩ (rest.glimpseAt i) ⟨rest, .operator, made⟩ := by
  intro s hs _
  rw [Setting.val_ahead, State.glimpse_tokenAhead, hs.rest]
  exact ⟨rfl, hs.inMode .operator⟩

/-- A parser that first looks ahead goes from every mode where it goes from one. -/
theorem Setting.Goes.of_ahead [Alphabet] {E : Setting} {α : Type} {i : Nat}
    {f : Glimpse → Parser α} {a : α}
    {cs : Text} {made : List Shape} {d : Spot}
    (h : E.Goes (.ahead i >>= f) ⟨cs, .operator, made⟩ a d) (mode : Mode) :
    E.Goes (.ahead i >>= f) ⟨cs, mode, made⟩ a d :=
  fun s hs hsafe => h (s.inMode .operator) (hs.inMode .operator) hsafe

/-! ## Plain tokens -/

namespace Text

/-- A token is read after an operand as what it is printed for, with a space behind it. -/
structure ReadsAs [Alphabet] (t : Text) (kind : Kind) : Prop where
  reads : ∀ {more : Text}, more.Settled →
    Mode.operator.Reads (t ++ (flatten gap ++ more)) kind t gap more
  solid : ∀ more : Text, Solid (t ++ (flatten gap ++ more))

/-- The keywords of declarations. -/
def declaringWords : List Kind :=
  [.classKw, .interfaceKw, .varKw, .constKw, .functionKw, .namespaceKw]

/-- A word that neither is the keyword of a declaration nor may stand in front of one on any
line. -/
structure IsIdle (t : Text) : Prop where
  keyword : ∀ k ∈ declaringWords, Kind.ofWord? t ≠ some k
  modifier : ∀ w ∈ classAttributes ++ propertyAttributes, t ≠ w.toList

instance (t : Text) : Decidable t.IsIdle :=
  decidable_of_iff ((∀ k ∈ declaringWords, Kind.ofWord? t ≠ some k) ∧
    ∀ w ∈ classAttributes ++ propertyAttributes, t ≠ w.toList)
    ⟨fun ⟨h, h'⟩ => ⟨h, h'⟩, fun ⟨h, h'⟩ => ⟨h, h'⟩⟩

/-- A token of an expression: read as it is printed, and of no use for a declaration or a label. -/
structure IsPlainAs [Alphabet] (t : Text) (kind : Kind) : Prop extends ReadsAs t kind where
  inside : kind ≠ .eof
  idle : kind = .name → t.IsIdle
  colon : kind = .colon → t = Kind.colon.text

def IsPlain [Alphabet] (t : Text) : Prop := ∃ kind, t.IsPlainAs kind

end Text

variable [Alphabet]

theorem Name.isIdle (n : Name) : n.text.IsIdle := by
  have hwords : ∀ w ∈ classAttributes ++ propertyAttributes, Kind.ofWord? w.toList ≠ none := by
    decide +kernel
  refine ⟨fun k _ => ?_, fun w hw heq => hwords w hw ?_⟩
  · rw [n.isFree.1]
    nofun
  · rw [← heq]
    exact n.isFree.1

theorem Name.isPlainAs (n : Name) : n.text.IsPlainAs .name where
  reads hmore := Mode.reads_of_isWord rfl n.isWord_text (ends_gap_of_settled hmore)
  solid _ := n.isWord_text.solid _
  inside := by decide
  idle _ := n.isIdle
  colon := nofun

theorem Numeral.isPlainAs (n : Numeral) : n.text.IsPlainAs .number where
  reads hmore := Mode.operator.reads_numeral rfl n (ends_gap_of_settled hmore)
  solid _ := n.solid _
  inside := by decide
  idle := nofun
  colon := nofun

/-- Operators and signs are plain, as signs or as words. -/
theorem Kind.isPlainAs {k : Kind} (hk : Mode.operator.hasOperator k = true) :
    k.text.IsPlainAs k.seenAs where
  reads hmore := by
    have hread := Mode.operator.reads_operator rfl hk hmore none
    rwa [Shape.source_sign_append] at hread
  solid more := by
    have hsolid := Mode.operator.solid_operator hk none more
    rwa [Shape.source_sign_append] at hsolid
  inside := by
    unfold Kind.seenAs
    split
    · decide
    · rintro rfl
      exact absurd hk (by decide)
  idle hname := by
    unfold Kind.seenAs at hname
    split at hname
    · rename_i hkey
      have hwords : ∀ k : Kind, k.isKeyword = true → Mode.operator.hasOperator k = true →
          k.text.IsIdle := by
        decide +kernel
      exact hwords k hkey hk
    · subst hname
      exact absurd hk (by decide)
  colon hcolon := by
    unfold Kind.seenAs at hcolon
    split at hcolon
    · cases hcolon
    · rw [hcolon]

/-! ## The tokens of an expression -/

namespace Text

theorem isPlain_operator {k : Kind} (hk : Mode.operator.hasOperator k = true) : k.text.IsPlain :=
  ⟨_, Kind.isPlainAs hk⟩

@[simp] theorem isPlain_name (n : Name) : n.text.IsPlain := ⟨_, n.isPlainAs⟩

@[simp] theorem isPlain_numeral (n : Numeral) : n.text.IsPlain := ⟨_, n.isPlainAs⟩

/-- All tokens are plain. -/
def ArePlain (ts : List Text) : Prop := ∀ t ∈ ts, IsPlain t

@[simp] theorem arePlain_nil : ArePlain [] := fun _ h => absurd h List.not_mem_nil

@[simp] theorem arePlain_cons {t : Text} {ts : List Text} :
    ArePlain (t :: ts) ↔ t.IsPlain ∧ ArePlain ts :=
  List.forall_mem_cons

@[simp] theorem arePlain_append {ts us : List Text} :
    ArePlain (ts ++ us) ↔ ArePlain ts ∧ ArePlain us :=
  List.forall_mem_append

@[simp] theorem arePlain_parenthesize {need : Bool} {ts : List Text} :
    ArePlain (parenthesize need ts) ↔ ArePlain ts := by
  cases need <;> simp (disch := decide) [parenthesize, isPlain_operator]

theorem arePlain_separateRuns {runs : List (List Text)} (h : ∀ ts ∈ runs, ArePlain ts) :
    ArePlain (separateRuns runs) := by
  induction runs with
  | nil => exact arePlain_nil
  | cons ts runs ih =>
    obtain ⟨hts, hrest⟩ := List.forall_mem_cons.1 h
    cases runs with
    | nil => simpa [separateRuns] using hts
    | cons us runs =>
      have hcomma : Kind.comma.text.IsPlain := isPlain_operator rfl
      simpa [separateRuns, List.intercalate_cons_cons, hts, hcomma] using ih hrest

end Text

@[simp] theorem LeadingOperator.isPlain (op : LeadingOperator) : op.kind.text.IsPlain :=
  Text.isPlain_operator (Expr.leadingOperator?_seenAs op.isLeading).2.2.1

@[simp] theorem UpdateOperator.isPlain (op : UpdateOperator) : op.kind.text.IsPlain :=
  Text.isPlain_operator (Expr.leadingOperator?_seenAs (by simp [op.isUpdate])).2.2.1

@[simp] theorem BinaryOperator.isPlain (op : BinaryOperator) : op.kind.text.IsPlain :=
  Text.isPlain_operator (infixOperator?_seenAs op.hasTier (r := {}) nofun nofun).2.1

@[simp] theorem AssignmentOperator.isPlain (op : AssignmentOperator) : op.kind.text.IsPlain :=
  Text.isPlain_operator
    (infixOperator?_seenAs (Kind.assignment_facts op.isAssignment).1 (r := {}) nofun nofun).2.1

namespace Expr

open Text

mutual

/-- **Every token of a printed expression is plain.** -/
theorem arePlain_tokens (e : Expr) : ArePlain e.tokens := by
  cases e with
  | reference target => exact arePlain_tokensOfReference target
  | number n => simp [tokens]
  | array elements =>
    have helements := arePlain_separateRuns (arePlain_tokensAll elements)
    simp (disch := decide) [tokens, isPlain_operator, helements]
  | object properties =>
    have hproperties := arePlain_separateRuns (arePlain_tokensOfProperties properties)
    simp (disch := decide) [tokens, isPlain_operator, hproperties]
  | call function arguments =>
    have harguments := arePlain_separateRuns (arePlain_tokensAll arguments)
    simp (disch := decide) [tokens, isPlain_operator, function.arePlain_tokens, harguments]
  | leading op argument => simp [tokens, argument.arePlain_tokens]
  | trailing argument op => simp [tokens, argument.arePlain_tokens]
  | binary op left right => simp [tokens, left.arePlain_tokens, right.arePlain_tokens]
  | conditional condition consequence alternative =>
    simp (disch := decide) [tokens, isPlain_operator, condition.arePlain_tokens,
      consequence.arePlain_tokens, alternative.arePlain_tokens]
  | assign op target value =>
    simp [tokens, arePlain_tokensOfReference target, value.arePlain_tokens]
  | sequence left right =>
    simp (disch := decide) [tokens, isPlain_operator, left.arePlain_tokens, right.arePlain_tokens]

theorem arePlain_tokensOfReference (r : Reference) : ArePlain (tokensOfReference r) := by
  cases r with
  | name n => simp [tokensOfReference]
  | member base property =>
    simp (disch := decide) [tokensOfReference, isPlain_operator, base.arePlain_tokens]
  | subscript base index =>
    simp (disch := decide) [tokensOfReference, isPlain_operator, base.arePlain_tokens,
      index.arePlain_tokens]

theorem arePlain_tokensAll (es : List Expr) : ∀ ts ∈ tokensAll es, ArePlain ts := by
  match es with
  | [] => exact fun ts hts => absurd hts List.not_mem_nil
  | e :: es =>
    rw [tokensAll, List.forall_mem_cons, arePlain_parenthesize]
    exact ⟨e.arePlain_tokens, arePlain_tokensAll es⟩

theorem arePlain_tokensOfProperties (ps : List Property) :
    ∀ ts ∈ tokensOfProperties ps, ArePlain ts := by
  match ps with
  | [] => exact fun ts hts => absurd hts List.not_mem_nil
  | .mk key value :: properties =>
    rw [tokensOfProperties, List.forall_mem_cons]
    refine ⟨?_, arePlain_tokensOfProperties properties⟩
    simp (disch := decide) [isPlain_operator, value.arePlain_tokens]

end

/-! ## The first two tokens -/

/-- A name comes first, and no colon second. -/
def BeginsWith (n : Name) (ts : List Text) : Prop :=
  ∃ us, ts = n.text :: us ∧ us.head? ≠ some Kind.colon.text

theorem BeginsWith.append {n : Name} {t : Text} {ts : List Text} (h : BeginsWith n ts)
    (ht : t ≠ Kind.colon.text) (us : List Text) : BeginsWith n (ts ++ t :: us) := by
  obtain ⟨vs, rfl, hvs⟩ := h
  refine ⟨vs ++ t :: us, rfl, ?_⟩
  cases vs with
  | nil => simpa using ht
  | cons v vs => exact hvs

theorem BeginsWith.parenthesize {n : Name} {e : Expr} {floor : Nat}
    (h : e.firstName? = some n → BeginsWith n e.tokens)
    (hname : (if e.looserThan floor then none else e.firstName?) = some n) :
    BeginsWith n (parenthesize (e.looserThan floor) e.tokens) := by
  split at hname
  · cases hname
  · rename_i htight
    simpa [ActionScript.parenthesize, htight] using h hname

omit [Alphabet] in
theorem colon_ne_of_isSome {k : Kind}
    (h : k.precedence?.isSome = true ∨ k.isUpdateOperator = true) : k.text ≠ Kind.colon.text := by
  revert k
  decide +kernel

mutual

/-- **What begins with a name** has no colon behind it. -/
theorem beginsWith_of_firstName? (e : Expr) {n : Name} (h : e.firstName? = some n) :
    BeginsWith n e.tokens := by
  cases e with
  | reference target => exact beginsWith_of_firstNameOfReference? target h
  | number _ | array _ | object _ | leading _ _ => cases h
  | call function arguments =>
    rw [firstName?] at h
    rw [tokens, List.append_assoc]
    exact (BeginsWith.parenthesize function.beginsWith_of_firstName? h).append (by decide) _
  | trailing argument op =>
    rw [firstName?] at h
    exact (BeginsWith.parenthesize argument.beginsWith_of_firstName? h).append
      (colon_ne_of_isSome (.inr op.isUpdate)) []
  | binary op left right =>
    rw [firstName?] at h
    exact (BeginsWith.parenthesize left.beginsWith_of_firstName? h).append
      (colon_ne_of_isSome (.inl (by rw [op.hasTier]; rfl))) _
  | conditional condition consequence alternative =>
    rw [firstName?] at h
    rw [tokens, List.append_assoc]
    exact (BeginsWith.parenthesize condition.beginsWith_of_firstName? h).append (by decide) _
  | assign op target value =>
    have htier := (Kind.assignment_facts op.isAssignment).1
    exact (beginsWith_of_firstNameOfReference? target h).append
      (colon_ne_of_isSome (.inl (by rw [htier]; rfl))) _
  | sequence left right =>
    exact (left.beginsWith_of_firstName? h).append (by decide) _

theorem beginsWith_of_firstNameOfReference? (r : Reference) {n : Name}
    (h : firstNameOfReference? r = some n) : BeginsWith n (tokensOfReference r) := by
  cases r with
  | name m =>
    cases h
    exact ⟨[], rfl, nofun⟩
  | member base property =>
    rw [firstNameOfReference?] at h
    exact (BeginsWith.parenthesize base.beginsWith_of_firstName? h).append (by decide) _
  | subscript base index =>
    rw [firstNameOfReference?] at h
    rw [tokensOfReference, List.append_assoc]
    exact (BeginsWith.parenthesize base.beginsWith_of_firstName? h).append (by decide) _

end

end Expr

/-! ## No declaration -/

namespace Text

variable {t more : Text} {ts : List Text}

theorem settled_spaced (hts : ArePlain ts) (hmore : more.Settled) :
    Settled (spaced ts [' '] ++ more) := by
  cases ts with
  | nil => exact hmore
  | cons t ts =>
    obtain ⟨⟨kind, ht⟩, hts⟩ := arePlain_cons.1 hts
    have hsolid := ht.solid (spaced ts [' '] ++ more)
    rw [spaced_cons_gap, List.append_assoc]
    exact settled_of_solid hsolid

/-- Plain tokens are read one by one. -/
theorem IsPlainAs.reads_spaced {kind : Kind} (ht : t.IsPlainAs kind) (hts : ArePlain ts)
    (hmore : more.Settled) :
    Mode.operator.Reads (spaced (t :: ts) [' '] ++ more) kind t gap (spaced ts [' '] ++ more) := by
  rw [spaced_cons_gap, List.append_assoc]
  exact ht.reads (settled_spaced hts hmore)

/-- No word on the same line comes next. -/
def EndsWords (cs : Text) : Prop :=
  (cs.glimpse .operator).kind = .name → (cs.glimpse .operator).startsLine = true

end Text

namespace Setting

open Text

variable {E : Setting} {cs more : Text}

/-- An idle word leads up to what the next word on its line leads up to. -/
theorem goes_idleWord {t : Text} (ht : t.IsIdle) {limit i : Nat} {startsLine : Bool}
    (hfirst : cs.glimpseAt i = ⟨.name, t, startsLine⟩) {made : List Shape}
    (hnext : (cs.glimpseAt (i + 1)).kind = .name → (cs.glimpseAt (i + 1)).startsLine = false →
      E.Goes (declarationWord? limit (i + 1)) ⟨cs, .operator, made⟩ none ⟨cs, .operator, made⟩) :
    E.Goes (declarationWord? (limit + 1) i) ⟨cs, .operator, made⟩ none ⟨cs, .operator, made⟩ := by
  have hwords : ∀ words : List String, (∀ w ∈ words, w ∈ classAttributes ++ propertyAttributes) →
      Glimpse.isOneOf ⟨.name, t, startsLine⟩ words = false := by
    intro words hwords
    refine Bool.eq_false_iff.2 fun hone => ?_
    simp only [Glimpse.isOneOf, beq_self_eq_true, Bool.true_and, List.any_eq_true,
      beq_iff_eq] at hone
    obtain ⟨w, hw, rfl⟩ := hone
    exact ht.modifier w (hwords w hw) rfl
  have hclass := hwords classAttributes fun w hw => List.mem_append_left _ hw
  have hproperty := hwords propertyAttributes fun w hw => List.mem_append_right _ hw
  refine (goes_ahead i cs .operator made).bind ?_
  rw [hfirst]
  refine .of_neg (by simp) ?_
  split
  case h_7 =>
    refine .of_neg (by simp [hclass, hproperty]) ((goes_ahead _ _ _ _).bind ?_)
    by_cases hgoesOn : ((cs.glimpseAt (i + 1)).kind == .name &&
        !(cs.glimpseAt (i + 1)).startsLine) = true
    · have hparts : (cs.glimpseAt (i + 1)).kind = .name ∧
          (cs.glimpseAt (i + 1)).startsLine = false := by simpa using hgoesOn
      exact .of_pos hgoesOn (hnext hparts.1 hparts.2)
    · exact .of_neg hgoesOn (goes_pure _ _)
  all_goals
    rename_i hword
    exact absurd hword (ht.keyword _ (by decide))

/-- **Idle words lead up to no declaration**, if what ends them is no word on their line. -/
theorem goes_declarationWord? (hmore : more.Settled) (hwords : more.EndsWords) {t : Text}
    {ts : List Text} (ht : t.IsIdle) (hts : ArePlain ts) (limit i : Nat) {startsLine : Bool}
    (hfirst : cs.glimpseAt i = ⟨.name, t, startsLine⟩)
    (hreaches : cs.Reaches (i + 1) (spaced ts [' '] ++ more)) (made : List Shape) :
    E.Goes (declarationWord? limit i) ⟨cs, .operator, made⟩ none ⟨cs, .operator, made⟩ := by
  induction ts generalizing t limit i startsLine with
  | nil =>
    cases limit with
    | zero => exact goes_pure _ _
    | succ limit =>
      refine goes_idleWord ht hfirst fun hname hline => ?_
      rw [hreaches.glimpseAt] at hname hline
      have hline' := hwords hname
      rw [show spaced [] [' '] ++ more = more from rfl] at hline
      rw [hline'] at hline
      cases hline
  | cons u us ih =>
    obtain ⟨⟨kind, hu⟩, hus⟩ := arePlain_cons.1 hts
    have hread := hu.reads_spaced hus hmore
    cases limit with
    | zero => exact goes_pure _ _
    | succ limit =>
      refine goes_idleWord ht hfirst fun hname _ => ?_
      rw [hreaches.glimpseAt, hread.glimpse] at hname
      obtain rfl : kind = .name := hname
      have hsecond := hreaches.glimpseAt
      rw [hread.glimpse] at hsecond
      exact ih (hu.idle rfl) hus limit (i + 1) hsecond (hreaches.step hread hu.inside)

/-- **A name with plain tokens behind it opens an expression**: neither a declaration nor a
label. -/
theorem goes_plainWordStatement {lead : List Trivia} {n : Name} {ts : List Text}
    (hread : Mode.operator.ReadsBehind lead cs .name n.text gap (spaced ts [' '] ++ more))
    (hts : ArePlain ts) (hsecond : ts.head? ≠ some Kind.colon.text) (hmore : more.Settled)
    (hwords : more.EndsWords) (hcolon : more.ahead ≠ .colon) {made : List Shape} {d : Spot}
    (h : E.Goes expressionStatement ⟨cs, .operator, made⟩ () d) (mode : Mode) :
    E.Goes plainWordStatement ⟨cs, mode, made⟩ () d := by
  have hdeclaration : E.Goes nextDeclaration? ⟨cs, mode, made⟩ none ⟨cs, .operator, made⟩ :=
    Goes.of_ahead (goes_declarationWord? hmore hwords n.isIdle hts wordLimit 0 hread.glimpse
      (reaches_one hread (by decide)) made) mode
  have hnext : (cs.glimpseAt 1).kind ≠ .colon := by
    rw [(reaches_one hread (by decide)).glimpseAt]
    cases ts with
    | nil => exact hcolon
    | cons u us =>
      obtain ⟨⟨kind, hu⟩, hus⟩ := arePlain_cons.1 hts
      rw [(hu.reads_spaced hus hmore).glimpse]
      rintro rfl
      exact hsecond (congrArg some (hu.colon rfl))
  refine hdeclaration.bind ((goes_ahead 1 cs _ made).bind (.of_neg ?_ h))
  simpa using hnext

end Setting

end ActionScript
