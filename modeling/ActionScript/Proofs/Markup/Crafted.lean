import ActionScript.Proofs.Answering.Trees
import ActionScript.Proofs.Markup.Views
import ActionScript.Proofs.Regular

/-!
# What elements and vector literals are made of

The nodes that are not made like all others are those of elements, of their start tags and of vector
literals.  What they begin with is the token that was seen in front of them, in the mode in which it
was looked at last; and what an element holds, if nothing is wrong, is a start tag, content and an
end tag that matches.

* `Shape.signs`: the tokens of shapes by kind and text.  No parser changes those that there are.
* `Shape.IsTag`, `Shape.Matched`: what a tag, and an element with its tags, is made of.
* `Crafted`: what holds of the children of a node.  `Setting.crafts_atDepth`: **all nodes are so**,
  at every depth.
-/

set_option autoImplicit false

namespace ActionScript

open ActionScript.Parser ActionScript.Grammar

/-! ## Tokens by kind and text -/

namespace Shape

/-- The kind and the text of a token. -/
def sign? : Shape → Option (Kind × Text)
  | .token kind _ _ text _ => some (kind, text)
  | .node .. => none

/-- The tokens of shapes in a row, by kind and text. -/
def signs (ss : List Shape) : List (Kind × Text) := (tokensAll ss).filterMap sign?

@[simp] theorem signs_nil : signs [] = [] := by simp [signs]

@[simp] theorem signs_append (ss ts : List Shape) : signs (ss ++ ts) = signs ss ++ signs ts := by
  simp [signs]

@[simp] theorem signs_token (kind : Kind) (field : Option Field) (leading : List Trivia)
    (text : Text) (trailing : List Trivia) :
    signs [.token kind field leading text trailing] = [(kind, text)] := by
  simp [signs, sign?]

@[simp] theorem signs_node (kind : Kind) (field : Option Field) (children : List Shape) :
    signs [.node kind field children] = signs children := by
  simp [signs]

@[simp] theorem signs_withField (f : Field) (s : Shape) : signs [s.withField f] = signs [s] := by
  cases s <;> simp [withField]

@[simp] theorem kind_withField (f : Field) (s : Shape) : (s.withField f).kind = s.kind := by
  cases s <;> rfl

end Shape

namespace State

variable {s t : State}

/-- The tokens taken into the open node so far, by kind and text. -/
def signs (s : State) : List (Kind × Text) := Shape.signs s.children.reverse

theorem signs_of_children {c : Shape} {cs : List Shape} (h : s.children = c :: cs) :
    s.signs = Shape.signs cs.reverse ++ Shape.signs [c] := by
  rw [signs, h, List.reverse_cons, Shape.signs_append]

@[simp] theorem signs_enter_nil (limits : Limits) : (s.enter limits []).signs = [] := by
  simp [signs]

@[simp] theorem signs_inMode (mode : Mode) : (s.inMode mode).signs = s.signs := rfl

@[simp] theorem signs_takeAs [Alphabet] (limits : Limits) (kind : Kind) (field : Option Field) :
    (s.takeAs limits kind field).signs = s.signs ++ [(kind, s.token.text)] := by
  rw [signs_of_children (takeAs_children s limits kind field), Shape.signs_token]
  rfl

@[simp] theorem signs_close (outer : List Shape) (kind : Kind) :
    (t.close outer kind).signs = Shape.signs outer.reverse ++ t.signs := by
  rw [signs_of_children (close_children t outer kind), Shape.signs_node]
  rfl

@[simp] theorem signs_labelLast (field : Field) : (s.labelLast field).signs = s.signs := by
  cases hs : s.children with
  | nil => simp [signs, State.labelLast, hs]
  | cons c cs =>
    rw [signs_of_children (labelLast_children s field hs), signs_of_children hs,
      Shape.signs_withField]

end State

namespace Setting

variable [Alphabet] {E : Setting} {α : Type}

/-- **No parser changes the tokens that have been taken.** -/
theorem signs_prefix_after (p : Parser α) (s : State) : s.signs <+: (E.after p s).signs := by
  induction p generalizing s with
  | andThen first next ihFirst ihNext => exact (ihFirst s).trans (ihNext _ _)
  | take field => simp
  | takeWord keyword field => simp
  | report error => simp [State.signs]
  | node body => simp [State.signs]
  | wrap field body ih =>
    rw [after_wrap, State.signs_close]
    refine List.IsPrefix.trans ?_ ((List.prefix_append_right_inj _).2 (ih _))
    cases hs : s.children with
    | nil => simp [State.signs, hs]
    | cons c cs => simp [State.signs, hs]
  | label field => simp
  | loop body ih =>
    exact after_loop_induct (fun t => s.signs <+: t.signs) (List.prefix_refl _) (fun _ _ h => h)
      fun t ht => ht.trans (ih t)
  | call rule =>
    obtain ⟨kind, children, hmakes⟩ := E.makes rule s
    rw [after_call, State.signs_of_children hmakes]
    exact List.prefix_append _ _
  | _ => exact List.prefix_refl _

/-- A token that is taken comes behind those that have been. -/
theorem exists_signs_take (s : State) (field : Option Field) (next : Unit → Parser α) :
    ∃ more, (E.after (.take field >>= next) s).signs =
      s.signs ++ (s.token.kind, s.token.text) :: more := by
  obtain ⟨more, hmore⟩ := signs_prefix_after (E := E) (next ()) (E.after (.take field) s)
  refine ⟨more, ?_⟩
  change (E.after (next ()) (E.after (.take field) s)).signs = _
  rw [← hmore, after_take, State.signs_takeAs, List.append_assoc]
  rfl

end Setting

/-- A token of a kind with a spelling is spelled so. -/
theorem Place.next_text_of_kind [Alphabet] {place : Place} {mode : Mode} {kind : Kind}
    (h : (place.next mode).1.kind = kind) (hspelled : kind.spelling.isSome = true) :
    (place.next mode).1.text = kind.text := by
  obtain ⟨w, hw⟩ := Option.isSome_iff_exists.1 hspelled
  rw [next_text_eq (h ▸ hw), Kind.text, hw]
  rfl

/-- Inside a node that does not stop the parse the next token is the same. -/
theorem State.enter_token [Alphabet] {s : State} {limits : Limits} {children : List Shape}
    (h : (s.enter limits children).aborted = none) : (s.enter limits children).token = s.token := by
  rcases s.enter_cases limits children with ⟨hp, hm, -⟩ | ⟨hna, -⟩
  · rw [token, hp, hm]
    rfl
  · exact absurd h hna

/-! ## The sign in front -/

/-- The ways in which a `<` before an operand can be read, together with what follows it. -/
def Kind.openers : List Kind := [.lt, .shl, .lteq, .shlEq]

theorem Kind.isSome_spelling_of_mem_openers {k : Kind} (h : k ∈ openers) :
    k.spelling.isSome = true := by
  simp only [openers, List.mem_cons, List.not_mem_nil, or_false] at h
  rcases h with rfl | rfl | rfl | rfl <;> decide

/-- What is a `<` before an operand is one of the openers in operator mode. -/
theorem Place.ahead_mem_openers [Alphabet] {place : Place}
    (h : (place.next .exprStart).1.kind = .lt) :
    place.ahead ∈ Kind.openers := by
  have hlexeme (cs : Text) (hlt : (Code.lexeme .exprStart cs).kind = .lt) :
      (Code.lexeme .operator cs).kind ∈ Kind.openers := by
    have hne : cs ≠ [] := by
      rintro rfl
      cases hlt
    have htext := (Lexeme.read_proper .exprStart hne).text_eq (w := "<") (by
      change (Code.lexeme .exprStart cs).kind.spelling = _
      rw [hlt]
      rfl)
    have happend := Lexeme.read_append .exprStart cs
    rw [htext] at happend
    rw [← happend]
    have hmem := Code.operator_kind_mem
      ⟨.lt, [(['<', '='], .shlEq), (['<'], .shl), (['='], .lteq)]⟩ '<'
      (Lexeme.read .exprStart cs).rest
    have hsub : ∀ k ∈ [Kind.lt, .shlEq, .shl, .lteq], k ∈ Kind.openers := by decide
    exact hsub _ hmem
  exact hlexeme _ h

/-! ## Tags -/

namespace Shape

/-- The name in a tag: it is written out, or an expression gives it, or there is none. -/
inductive NamePart : Option Text → List Shape → Prop
  | written (name : Text) (leading trailing : List Trivia) :
    NamePart (some name) [.token .name (some .name) leading name trailing]
  | given (children : List Shape) : NamePart none [.node .xmlExpr (some .name) children]
  | absent : NamePart none []

theorem NamePart.reverse_eq {name : Option Text} {ss : List Shape} (h : NamePart name ss) :
    ss.reverse = ss := by
  cases h <;> rfl

/-- The children of a tag: a sign, the name, attributes and the sign at the end.  A tag without a
name has no attributes. -/
def IsTag (name : Option Text) (last : Kind) (tag : List Shape) : Prop :=
  ∃ opening names attributes closing, tag = opening :: names ++ attributes ++ [closing] ∧
    opening.slot? = none ∧ NamePart name names ∧ (∀ c ∈ attributes, c.slot? = some .attribute) ∧
    (names = [] → attributes = []) ∧
    ∃ leading text trailing, closing = .token last none leading text trailing

/-- The children of an element: a start tag that closes itself, or content between a start tag and
an end tag, and then two names that are written out are the same. -/
def Matched (children : List Shape) : Prop :=
  ∃ name tag, (children = [.node .xmlStartTag (some .openTag) tag] ∧ IsTag name .slashGt tag) ∨
    ∃ content name' tag', children = .node .xmlStartTag (some .openTag) tag :: content ++
        [.node .xmlEndTag (some .closeTag) tag'] ∧
      IsTag name .gt tag ∧ IsTag name' .gt tag' ∧ (∀ c ∈ content, c.slot? = some .content) ∧
      ∀ a b, name = some a → name' = some b → a = b

end Shape

/-- What holds of the children of a node in the tree of a parse; where `q` holds, nothing is wrong
with the text. -/
structure Crafted (q : Prop) (kind : Kind) (children : List Shape) : Prop where
  filled : children = [] → kind = .error
  sound : q → kind ≠ .error
  opening : kind = .xmlStartTag → ∃ k ∈ Kind.openers, ∃ more,
    Shape.signs children = (k, k.text) :: more
  vector : kind = .vectorLiteral →
    (∃ k ∈ Kind.openers, ∃ more, Shape.signs children = (k, k.text) :: more) ∨
      ∃ word more, Shape.signs children = (.newKw, word) :: (.lt, Kind.lt.text) :: more
  nested : kind = .xmlElement → ∀ c ∈ children, c.kind = .xmlElement →
    ∃ more, Shape.signs [c] = (.lt, Kind.lt.text) :: more
  matched : q → kind = .xmlElement → Shape.Matched children

/-- Children with a token among them are some. -/
theorem Shape.ne_nil_of_signs {ss : List Shape} {x : Kind × Text} {more : List (Kind × Text)}
    (h : signs ss = x :: more) : ss ≠ [] := by
  rintro rfl
  cases h

/-- A start tag has only to open as it should. -/
theorem Crafted.startTag {q : Prop} {children : List Shape} {k : Kind} {more : List (Kind × Text)}
    (hk : k ∈ Kind.openers) (h : Shape.signs children = (k, k.text) :: more) :
    Crafted q .xmlStartTag children where
  filled hnil := absurd hnil (Shape.ne_nil_of_signs h)
  sound _ h := by cases h
  opening _ := ⟨k, hk, more, h⟩
  vector h := by cases h
  nested h := by cases h
  matched _ h := by cases h

theorem Crafted.of_unmarked (q : Prop) : Setting.Lenient (Crafted q) q := by
  intro kind children hkind hfilled hsound
  have hne {k : Kind} (hk : k.isMarked = true) : kind ≠ k := by
    rintro rfl
    rw [hkind] at hk
    cases hk
  exact ⟨hfilled, hsound, fun h => absurd h (hne rfl), fun h => absurd h (hne rfl),
    fun h => absurd h (hne rfl), fun _ h => absurd h (hne rfl)⟩

/-! ## What the routines add -/

namespace State

/-- Children have been added, each as `ok` says. -/
def Adds (ok : Shape → Prop) (s t : State) : Prop :=
  ∃ more, t.children = more ++ s.children ∧ ∀ c ∈ more, ok c

variable {ok : Shape → Prop} {s t u : State}

theorem Adds.of_eq (h : t.children = s.children) : s.Adds ok t :=
  ⟨[], h, fun _ hc => absurd hc List.not_mem_nil⟩

theorem Adds.trans (h₁ : s.Adds ok t) (h₂ : t.Adds ok u) : s.Adds ok u := by
  obtain ⟨more, hmore, hok⟩ := h₁
  obtain ⟨last, hlast, hok'⟩ := h₂
  refine ⟨last ++ more, by rw [hlast, hmore, List.append_assoc], fun c hc => ?_⟩
  rcases List.mem_append.1 hc with hc | hc
  · exact hok' c hc
  · exact hok c hc

theorem Adds.one {c : Shape} (h : t.children = c :: s.children) (hc : ok c) : s.Adds ok t :=
  ⟨[c], h, by simpa using hc⟩

theorem Adds.mono {ok' : Shape → Prop} (h : s.Adds ok t) (hok : ∀ c, ok c → ok' c) :
    s.Adds ok' t := by
  obtain ⟨more, hmore, hmores⟩ := h
  exact ⟨more, hmore, fun c hc => hok c (hmores c hc)⟩

end State

namespace Setting

variable [Alphabet] {E : Setting} {q : Prop} {s : State}

/-- A node with a label. -/
theorem children_nodeOf_label (kind : Kind) (body : Parser Unit) (field : Field) :
    ∃ kids, (E.after (nodeOf kind body >>= fun _ => .label field) s).children =
      .node kind (some field) kids :: s.children := by
  refine ⟨(E.after body (s.enter E.limits [])).children.reverse, ?_⟩
  rw [after_bind, after_nodeOf, after_label]
  exact State.labelLast_children _ _ (State.close_children _ _ _)

theorem children_interpolation (field : Field) :
    ∃ kids, (E.after (interpolation field) s).children =
      .node .xmlExpr (some field) kids :: s.children :=
  children_nodeOf_label _ _ _

theorem children_tagAttribute :
    ∃ kids, (E.after tagAttribute s).children =
      .node .xmlAttribute (some .attribute) kids :: s.children :=
  children_nodeOf_label _ _ _

/-- A piece that is missing makes itself heard. -/
theorem not_quiet_missing {error : SyntaxError} : ¬(E.after (missing error) s).Quiet := fun h =>
  State.not_quiet_report ((grows_after (nodeOf .error (pure ())) (s.report error)).quiet h)

theorem not_quiet_missing_bind {α : Type} {error : SyntaxError} {next : Unit → Parser α} :
    ¬(E.after (missing error >>= next) s).Quiet := fun h =>
  not_quiet_missing ((grows_after (E := E) (next ()) (E.after (missing error) s)).quiet h)

/-- What is expected is taken, if nothing is wrong. -/
theorem children_expectIn {mode : Mode} {kind : Kind} (h : (E.after (expectIn mode kind) s).Quiet) :
    E.val (expectIn mode kind) s = true ∧ ∃ leading text trailing,
      (E.after (expectIn mode kind) s).children =
        .token kind none leading text trailing :: s.children := by
  rw [val_expectIn]
  simp only [expectIn, after_bind, val_seesIn, after_seesIn, after_ite, after_pure] at h ⊢
  cases hkind : (s.place.next mode).1.kind == kind with
  | true =>
    simp only [if_pos, after_take, State.takeAs_children]
    rw [State.inMode_token, eq_of_beq hkind]
    exact ⟨trivial, _, _, _, rfl⟩
  | false =>
    simp only [hkind, Bool.false_eq_true, if_false] at h
    exact absurd h not_quiet_missing

/-- The name of a tag is added, and told if it is written out. -/
theorem children_tagName? (h : (E.after tagName? s).Quiet) :
    ∃ names, (E.after tagName? s).children = names ++ s.children ∧
      Shape.NamePart (E.val tagName? s) names ∧
      (names = [] → E.after tagName? s = s.inMode .xmlTag ∧
        (s.place.next .xmlTag).1.kind = .gt) := by
  simp only [tagName?, after_bind, val_bind, val_seesIn, after_seesIn, after_ite, val_ite] at h ⊢
  cases hgt : (s.place.next .xmlTag).1.kind == .gt with
  | true =>
    refine ⟨[], rfl, ?_, fun _ => ⟨rfl, eq_of_beq hgt⟩⟩
    exact .absent
  | false =>
    simp only [hgt, Bool.false_eq_true, if_false] at h ⊢
    simp only [tagName, after_bind, val_bind, val_look, after_look, glimpse_kind, glimpse_text,
      State.inMode_place, State.inMode_inMode] at h ⊢
    split at h
    · rename_i hname
      simp only [hname, after_bind, after_take, after_pure, val_bind, val_pure] at h ⊢
      refine ⟨[_], State.takeAs_children _ _ _ _, ?_, fun hnil => (by cases hnil)⟩
      rw [State.inMode_token, hname]
      exact .written _ _ _
    · rename_i hcurly
      simp only [hcurly, after_bind, after_pure, val_bind, val_pure]
      obtain ⟨kids, hkids⟩ := children_interpolation (E := E) (s := s.inMode .xmlTag) .name
      exact ⟨[_], hkids, .given kids, fun hnil => (by cases hnil)⟩
    · exact absurd h not_quiet_missing_bind

/-- Attributes are added, each in its slot. -/
theorem adds_attributes : s.Adds (fun c => c.slot? = some .attribute) (E.after attributes s) := by
  refine after_loop_induct (fun t => s.Adds _ t) (.of_eq rfl)
    (fun _ _ h => h) fun t ht => ht.trans ?_
  simp only [after_bind, val_look, after_look, glimpse_kind]
  split
  · obtain ⟨kids, hkids⟩ := children_tagAttribute (E := E) (s := t.inMode .xmlTag)
    exact .one hkids rfl
  · obtain ⟨kids, hkids⟩ := children_interpolation (E := E) (s := t.inMode .xmlTag) .attribute
    exact .one hkids rfl
  · exact .of_eq rfl

/-- A repetition whose first step does not go on ends with it. -/
theorem after_loop_last {body : Parser Bool} (h : E.val body s = false) :
    E.after (.loop body) s = E.after body s := by
  rw [after_loop, State.repeatWhile]
  simp only [h]

/-- Before the end of a tag there are no attributes. -/
theorem after_attributes_of_gt (h : (s.place.next .xmlTag).1.kind = .gt) :
    E.after attributes s = s.inMode .xmlTag := by
  rw [attributes, after_loop_last]
  · simp only [after_bind, val_look, after_look, glimpse_kind, h, after_pure]
  · simp only [val_bind, val_look, after_look, glimpse_kind, h, val_pure]

/-- What follows the sign that opens a start tag. -/
def tagRest : Parser (Kind × (Option Text × TagEnd)) := do
  let name ← tagName?
  attributes
  if ← seesIn .xmlTag .slashGt then
    take none
    return (.xmlStartTag, (name, .closed))
  else
    let found ← expectIn .xmlTag .gt
    return (.xmlStartTag, (name, if found then .opened else .missing))

omit [Alphabet] in
theorem startTag_eq : startTag = (node (take none >>= fun _ => tagRest) >>= fun result =>
    label .openTag >>= fun _ => pure result) := rfl

omit [Alphabet] in
@[simp] theorem regular_tagRest : tagRest.Regular := by
  simp [tagRest]

omit [Alphabet] in
theorem yields_tagRest : tagRest.Yields fun made => made.1 = .xmlStartTag := by
  simp [tagRest]

/-- **A start tag is made of its parts**, if nothing is wrong, and its end is told. -/
theorem children_tagRest {c : Shape} (hc : s.children = [c]) (hslot : c.slot? = none)
    (h : (E.after tagRest s).Quiet) :
    ((E.val tagRest s).2.2 = .closed ∧
      Shape.IsTag (E.val tagRest s).2.1 .slashGt (E.after tagRest s).children.reverse) ∨
    ((E.val tagRest s).2.2 = .opened ∧
      Shape.IsTag (E.val tagRest s).2.1 .gt (E.after tagRest s).children.reverse) := by
  rw [tagRest, after_bind] at h ⊢
  rw [val_bind]
  have hname := (grows_after (E := E) _ (E.after tagName? s)).quiet h
  obtain ⟨names, hnames, hpart, hbare⟩ := children_tagName? hname
  generalize E.val tagName? s = name at *
  obtain ⟨mores, hattributes, hslots⟩ := adds_attributes (E := E) (s := E.after tagName? s)
  have hnone (hnil : names = []) : mores = [] := by
    obtain ⟨heq, hgt⟩ := hbare hnil
    rw [after_attributes_of_gt (by rw [heq]; exact hgt)] at hattributes
    simpa using hattributes
  have hparts (last : Kind) (lead : List Trivia) (text : Text) (tail : List Trivia) :
      Shape.IsTag name last
        (Shape.token last none lead text tail :: (mores ++ (names ++ s.children))).reverse := by
    refine ⟨c, names, mores.reverse, _, ?_, hslot, hpart,
      fun d hd => hslots d (List.mem_reverse.1 hd),
      fun hnil => by rw [hnone hnil, List.reverse_nil], lead, text, tail, rfl⟩
    simp [hc, hpart.reverse_eq]
  simp only [after_bind, val_bind, val_seesIn, after_seesIn, after_ite, val_ite] at h ⊢
  cases hclosed :
    ((E.after attributes (E.after tagName? s)).place.next .xmlTag).1.kind == .slashGt with
  | true =>
    left
    simp only [if_true, after_take, after_pure, val_pure, true_and]
    rw [State.takeAs_children, State.inMode_token, eq_of_beq hclosed, State.inMode_children,
      hattributes, hnames]
    exact hparts _ _ _ _
  | false =>
    right
    simp only [hclosed, Bool.false_eq_true, if_false, after_pure, val_pure] at h ⊢
    obtain ⟨hval, lead, text, tail, hlast⟩ := children_expectIn h
    rw [hval, hlast, State.inMode_children, hattributes, hnames]
    exact ⟨rfl, hparts _ _ _ _⟩

/-- The token that opens a node is its only child. -/
theorem children_take_enter (s : State) : ∃ c : Shape,
    (E.after (take none) (s.enter E.limits [])).children = [c] ∧ c.slot? = none :=
  ⟨_, State.takeAs_children _ _ _ _, rfl⟩

/-- What is known of a start tag behind it. -/
theorem children_startTag (s : State) : ∃ tag,
    (E.after startTag s).children = .node .xmlStartTag (some .openTag) tag :: s.children ∧
      ((E.after startTag s).Quiet →
        ((E.val startTag s).2 = .closed ∧ Shape.IsTag (E.val startTag s).1 .slashGt tag) ∨
          ((E.val startTag s).2 = .opened ∧ Shape.IsTag (E.val startTag s).1 .gt tag)) := by
  obtain ⟨c, hc, hslot⟩ := children_take_enter (E := E) s
  simp only [startTag_eq, after_bind, val_bind, after_pure, val_pure, after_label,
    after_node, val_node]
  generalize E.after (take none) (s.enter E.limits []) = u at *
  have hkind : (E.val tagRest u).1 = .xmlStartTag := yields_tagRest.val E u
  rw [hkind]
  refine ⟨(E.after tagRest u).children.reverse,
    State.labelLast_children _ _ (State.close_children _ _ _), fun hquiet => ?_⟩
  have hclosed := (grows_after (E := E) (.label .openTag)
    ((E.after tagRest u).close s.children .xmlStartTag)).quiet hquiet
  exact children_tagRest hc hslot hclosed.of_close.2

/-- What follows the sign that opens an end tag. -/
def endRest (opening : Option Text) : Parser Unit := do
  let closing ← tagName?
  checkName opening closing
  let _ ← expectIn .xmlTag .gt

omit [Alphabet] in
theorem endTag_eq (opening : Option Text) : endTag opening = (do
    if ← seesIn .xmlContent .ltSlash then
      nodeOf .xmlEndTag (take none >>= fun _ => endRest opening)
      label .closeTag
    else report .expectedClosingTag) := rfl

/-- The name is that of the start tag, if both are written out and nothing is wrong. -/
theorem children_checkName {opening closing : Option Text}
    (h : (E.after (checkName opening closing) s).Quiet) :
    E.after (checkName opening closing) s = s ∧
      ∀ a b, opening = some a → closing = some b → a = b := by
  unfold checkName at h ⊢
  split at h
  · rename_i a b
    rw [after_when] at h
    split at h
    · exact absurd h State.not_quiet_report
    · rename_i hsame
      have hsame : a = b := by simpa using hsame
      refine ⟨by rw [after_when, if_neg (by simpa using hsame)], ?_⟩
      rintro _ _ ⟨⟩ ⟨⟩
      exact hsame
  · rename_i hnone
    exact ⟨rfl, fun a b ha hb => (hnone a b ha hb).elim⟩

theorem children_endRest {opening : Option Text} {c : Shape} (hc : s.children = [c])
    (hslot : c.slot? = none) (h : (E.after (endRest opening) s).Quiet) :
    ∃ name, Shape.IsTag name .gt (E.after (endRest opening) s).children.reverse ∧
      ∀ a b, opening = some a → name = some b → a = b := by
  rw [endRest, after_bind, after_bind, after_bind, after_pure] at h ⊢
  have hcheck := (grows_after (expectIn .xmlTag .gt) _).quiet h
  obtain ⟨heq, hsame⟩ := children_checkName hcheck
  rw [heq] at h hcheck ⊢
  obtain ⟨names, hnames, hpart, -⟩ := children_tagName? hcheck
  obtain ⟨-, lead, text, tail, hlast⟩ := children_expectIn h
  refine ⟨E.val tagName? s,
    ⟨c, names, [], _, ?_, hslot, hpart, fun d hd => absurd hd List.not_mem_nil,
    fun _ => rfl, lead, text, tail, rfl⟩, hsame⟩
  rw [hlast, hnames, hc]
  simp [hpart.reverse_eq]

/-- **An end tag matches its start tag**, if nothing is wrong. -/
theorem children_endTag {opening : Option Text} (h : (E.after (endTag opening) s).Quiet) :
    ∃ name tag, (E.after (endTag opening) s).children =
        .node .xmlEndTag (some .closeTag) tag :: s.children ∧
      Shape.IsTag name .gt tag ∧ ∀ a b, opening = some a → name = some b → a = b := by
  rw [endTag_eq, after_bind, val_seesIn, after_seesIn, after_ite] at h ⊢
  cases hsees : (s.place.next .xmlContent).1.kind == .ltSlash with
  | false =>
    rw [hsees, if_neg Bool.false_ne_true] at h
    exact absurd h State.not_quiet_report
  | true =>
    rw [hsees, if_pos rfl] at h
    rw [if_pos rfl]
    obtain ⟨c, hc, hslot⟩ := children_take_enter (E := E) (s.inMode .xmlContent)
    rw [after_bind, after_nodeOf, after_bind] at h ⊢
    generalize E.after (take none) ((s.inMode .xmlContent).enter E.limits []) = u at *
    have hclosed := (grows_after (E := E) (.label .closeTag)
      ((E.after (endRest opening) u).close s.children .xmlEndTag)).quiet h
    obtain ⟨name, htag, hsame⟩ := children_endRest hc hslot hclosed.of_close.2
    exact ⟨name, _, State.labelLast_children _ _ (State.close_children _ _ _), htag, hsame⟩

/-- What stands between tags fills the slot for it. -/
theorem adds_content : s.Adds (fun c => c.slot? = some .content) (E.after content s) := by
  rw [Xml.content_eq]
  refine after_loop_induct (fun t => s.Adds _ t) (.of_eq rfl)
    (fun _ _ h => h) fun t ht => ht.trans ?_
  have htaken (u : State) : u.Adds (fun c => c.slot? = some .content)
      (E.after (.take (some .content)) u) := .one (State.takeAs_children _ _ _ _) rfl
  simp only [Xml.contentStep, after_bind, val_look, after_look, glimpse_kind]
  split
  · exact htaken (t.inMode .xmlContent)
  · exact htaken (t.inMode .xmlContent)
  · exact htaken (t.inMode .xmlContent)
  · exact htaken (t.inMode .xmlContent)
  · obtain ⟨kind, kids, hmakes⟩ := E.makes .element (t.inMode .xmlContent)
    exact .one (State.labelLast_children _ _ hmakes) rfl
  · obtain ⟨kids, hkids⟩ := children_interpolation (E := E) (s := t.inMode .xmlContent) .content
    exact .one hkids rfl
  · exact .of_eq rfl

/-! ## Nodes that are made as they should be -/

/-- The rules make nodes as they should be.  An element begins with the token that comes next. -/
structure Crafts (E : Setting) (q : Prop) : Prop where
  upholds : E.Upholds (Crafted q) q
  element : ∀ s : State, s.Sees (·.kind ∈ Kind.openers) →
    E.Keeps (Crafted q) q (.call .element) s
  opens : ∀ (s : State) (c : Shape) (cs : List Shape), (E.apply .element s).aborted = none →
    (E.apply .element s).children = c :: cs → c.kind = .xmlElement →
    ∃ more, Shape.signs [c] = (s.token.kind, s.token.text) :: more

/-- A node that opens with a token begins with the one that comes next, unless the parse is
stopped. -/
theorem exists_signs_take_enter {α : Type} {next : Unit → Parser α}
    (h : (E.after (take none >>= next) (s.enter E.limits [])).aborted = none) :
    ∃ more, (E.after (take none >>= next) (s.enter E.limits [])).signs =
      (s.token.kind, s.token.text) :: more := by
  have henter := (E.leads_after (take none >>= next) (s.enter E.limits [])).aborted h
  obtain ⟨more, hmore⟩ := exists_signs_take (E := E) (s.enter E.limits []) none next
  rw [State.signs_enter_nil, State.enter_token henter, List.nil_append] at hmore
  exact ⟨more, hmore⟩

/-- A start tag begins with the token that comes next. -/
theorem exists_signs_startTag (hs : s.signs = []) (h : (E.after startTag s).aborted = none) :
    ∃ more, (E.after startTag s).signs = (s.token.kind, s.token.text) :: more := by
  rw [startTag_eq, after_bind, after_bind, after_pure, after_label, after_node] at h ⊢
  rw [State.labelLast_aborted, State.close_aborted] at h
  rw [State.signs_labelLast, State.signs_close]
  obtain ⟨more, hmore⟩ := exists_signs_take_enter h
  rw [State.signs] at hs
  exact ⟨more, by rw [hmore, hs, List.nil_append]⟩

/-- What an element is made of. -/
def elementInside : Parser Unit := do
  let result ← startTag
  when (result.2 == .opened) do
    content
    endTag result.1

omit [Alphabet] in
theorem elementRule_eq : elementRule = nodeOf .xmlElement elementInside := rfl

/-- An element begins with the token that comes next. -/
theorem exists_signs_elementInside (hs : s.signs = [])
    (h : (E.after elementInside s).aborted = none) :
    ∃ more, (E.after elementInside s).signs = (s.token.kind, s.token.text) :: more := by
  have hrest (u : State) (hu : (E.after startTag s) = u) (next : Parser Unit)
      (ha : (E.after next u).aborted = none) :
      ∃ more, (E.after next u).signs = (s.token.kind, s.token.text) :: more := by
    obtain ⟨more, hmore⟩ := exists_signs_startTag (E := E) hs
      (hu ▸ (E.leads_after next u).aborted ha)
    obtain ⟨others, hothers⟩ := signs_prefix_after (E := E) next u
    exact ⟨more ++ others, by rw [← hothers, ← hu, hmore, List.cons_append]⟩
  rw [elementInside, after_bind] at h ⊢
  exact hrest _ rfl _ h

/-- **An element that nothing is wrong with has matching tags.** -/
theorem matched_elementInside (hs : s.children = []) (h : (E.after elementInside s).Quiet) :
    Shape.Matched (E.after elementInside s).children.reverse := by
  rw [elementInside, after_bind, after_when] at h ⊢
  have hstart : (E.after startTag s).Quiet := by
    split at h
    · exact (grows_after _ _).quiet h
    · exact h
  obtain ⟨tag, hchildren, htag⟩ := children_startTag (E := E) s
  rw [hs] at hchildren
  obtain ⟨hclosed, htag⟩ | ⟨hopened, htag⟩ := htag hstart
  · rw [hclosed, if_neg (by decide), hchildren]
    exact ⟨_, tag, .inl ⟨rfl, htag⟩⟩
  · rw [hopened, if_pos (by decide), after_bind] at h ⊢
    obtain ⟨more, hmore, hslots⟩ := adds_content (E := E) (s := E.after startTag s)
    obtain ⟨name, tag', hend, htag', hsame⟩ := children_endTag h
    rw [hend, hmore, hchildren]
    exact ⟨_, tag, .inr ⟨more.reverse, name, tag', by simp, htag, htag',
      fun c hc => hslots c (List.mem_reverse.1 hc), hsame⟩⟩

/-- An end tag is no element. -/
theorem adds_endTag (opening : Option Text) :
    s.Adds (fun c => c.kind ≠ .xmlElement) (E.after (endTag opening) s) := by
  rw [endTag_eq, after_bind, after_ite]
  split
  · obtain ⟨kids, hkids⟩ := children_nodeOf_label (E := E) (s := s.inMode .xmlContent) .xmlEndTag
      (take none >>= fun _ => endRest opening) .closeTag
    exact .one hkids fun h => (by cases h)
  · exact .of_eq (by simp)

/-- A vector literal behind `new` opens with a lone sign. -/
theorem crafted_newVector (h : (s.place.next .exprStart).1.kind = .lt) {word : Text}
    (hs : s.signs = [(.newKw, word)]) :
    Crafted q .vectorLiteral (E.after vectorBody (s.inMode .exprStart)).children.reverse := by
  have htaken : ∃ more, (E.after vectorBody (s.inMode .exprStart)).signs =
      (s.inMode .exprStart).signs ++ ((s.inMode .exprStart).token.kind,
        (s.inMode .exprStart).token.text) :: more := by
    rw [vectorBody]
    exact exists_signs_take _ none _
  obtain ⟨more, hmore⟩ := htaken
  rw [State.signs_inMode, hs, State.inMode_token, Place.next_text_of_kind h rfl, h,
    State.signs] at hmore
  exact
    { filled := fun hnil => absurd hnil (Shape.ne_nil_of_signs hmore)
      sound := fun _ h => (by cases h)
      opening := fun h => (by cases h)
      vector := fun _ => .inr ⟨word, more, hmore⟩
      nested := fun h => (by cases h)
      matched := fun _ h => (by cases h) }

/-- What follows `new` and its operand. -/
def constructionRest : Parser (Kind × Unit) := do
  chain false
  label .constructor
  when (← sees .lParen) arguments
  return (.newExpr, ())

omit [Alphabet] in
@[simp] theorem regular_constructionRest : constructionRest.Regular := by
  simp [constructionRest, chain]

omit [Alphabet] in
theorem yields_constructionRest : constructionRest.Yields fun made => made.1 = .newExpr := by
  simp [constructionRest]

omit [Alphabet] in
theorem constructionRule_eq : constructionRule = node (do
    takeWord .newKw none
    let g ← look .exprStart
    if g.kind == .lt then
      vectorBody
      return (.vectorLiteral, ())
    else
      (if g.isWord "new" then call .construction else operand)
      constructionRest) := rfl

variable (hE : E.Crafts q)
include hE

theorem keeps_regular {α : Type} {p : Parser α} (hp : p.Regular) : E.Keeps (Crafted q) q p s :=
  keeps_of_regular (Crafted.of_unmarked q) hE.upholds hp

/-- A start tag that opens with a sign for it is as it should be. -/
theorem keeps_startTag (hs : s.Sees (·.kind ∈ Kind.openers)) :
    E.Keeps (Crafted q) q startTag s := by
  rw [startTag_eq]
  refine .bind (.node (keeps_regular hE (by simp)) fun htame _ => ?_) (keeps_regular hE (by simp))
  have hkind : (E.val (take none >>= fun _ => tagRest) (s.enter E.limits [])).1 = .xmlStartTag := by
    rw [val_bind]
    exact yields_tagRest.val E _
  have henter := (E.leads_after (take none >>= fun _ => tagRest) (s.enter E.limits [])).aborted
    htame.aborted
  have hmem : s.token.kind ∈ Kind.openers := hs ((State.Leads.enter s E.limits []).aborted henter)
  obtain ⟨more, hmore⟩ := exists_signs_take_enter htame.aborted
  have htext : s.token.text = s.token.kind.text :=
    Place.next_text_of_kind rfl (Kind.isSome_spelling_of_mem_openers hmem)
  rw [htext, State.signs] at hmore
  rw [hkind]
  exact .startTag hmem hmore

/-- Between the tags of an element others begin with a lone sign. -/
theorem adds_content_nested (ha : (E.after content s).aborted = none) :
    s.Adds (fun c => c.kind = .xmlElement →
      ∃ more, Shape.signs [c] = (.lt, Kind.lt.text) :: more) (E.after content s) := by
  rw [Xml.content_eq] at ha ⊢
  refine after_loop_induct (fun t => t.aborted = none → s.Adds _ t) (fun _ => .of_eq rfl)
    (fun _ _ h => h) (fun t ht ha => (ht ((E.leads_after _ t).aborted ha)).trans ?_) ha
  have htaken {u : State} {k : Kind} (hkind : u.token.kind = k) (hk : k ≠ .xmlElement) :
      u.Adds (fun c => c.kind = .xmlElement → ∃ more, Shape.signs [c] = (.lt, Kind.lt.text) :: more)
        (E.after (.take (some .content)) u) :=
    .one (State.takeAs_children _ _ _ _) fun h => absurd (hkind.symm.trans h) hk
  simp only [Xml.contentStep, after_bind, val_look, after_look, glimpse_kind] at ha ⊢
  split at ha
  · rename_i hkind
    exact htaken (u := t.inMode .xmlContent) hkind (by decide)
  · rename_i hkind
    exact htaken (u := t.inMode .xmlContent) hkind (by decide)
  · rename_i hkind
    exact htaken (u := t.inMode .xmlContent) hkind (by decide)
  · rename_i hkind
    exact htaken (u := t.inMode .xmlContent) hkind (by decide)
  · rename_i hkind
    simp only [after_bind, after_callIn, after_pure, State.labelLast_aborted] at ha ⊢
    obtain ⟨kind, kids, hmakes⟩ := E.makes .element (t.inMode .xmlContent)
    refine .one (State.labelLast_children _ _ hmakes) fun h => ?_
    rw [Shape.signs_withField]
    obtain ⟨more, hmore⟩ := hE.opens _ _ _ ha hmakes (by simpa using h)
    refine ⟨more, hmore.trans ?_⟩
    rw [State.inMode_token, Place.next_text_of_kind hkind rfl, hkind]
  · obtain ⟨kids, hkids⟩ := children_interpolation (E := E) (s := t.inMode .xmlContent) .content
    exact .one hkids fun h => (by cases h)
  · exact .of_eq rfl

theorem keeps_content : E.Keeps (Crafted q) q content s := by
  rw [Xml.content_eq]
  refine .loop fun t => .bind (fun ht _ => ht) ?_
  rw [val_look, after_look, glimpse_kind]
  split
  · exact keeps_regular hE (by simp)
  · exact keeps_regular hE (by simp)
  · exact keeps_regular hE (by simp)
  · exact keeps_regular hE (by simp)
  · rename_i hkind
    have hlt : (t.place.next .xmlContent).1.kind ∈ Kind.openers := by
      rw [hkind]
      decide
    exact .bind (.bind (hE.element _ fun _ => hlt) (keeps_regular hE (by simp)))
      (keeps_regular hE (by simp))
  · exact keeps_regular hE (by simp)
  · exact keeps_regular hE (by simp)

/-- Inside an element others begin with a lone sign. -/
theorem adds_elementInside (h : (E.after elementInside s).aborted = none) :
    s.Adds (fun c => c.kind = .xmlElement →
      ∃ more, Shape.signs [c] = (.lt, Kind.lt.text) :: more) (E.after elementInside s) := by
  obtain ⟨tag, hchildren, -⟩ := children_startTag (E := E) s
  have htag : s.Adds (fun c => c.kind = .xmlElement →
      ∃ more, Shape.signs [c] = (.lt, Kind.lt.text) :: more) (E.after startTag s) :=
    .one hchildren fun hkind => (by cases hkind)
  rw [elementInside, after_bind, after_when] at h ⊢
  generalize E.after startTag s = t at *
  generalize E.val startTag s = result at *
  split at h
  · rename_i hopened
    rw [if_pos hopened, after_bind]
    rw [after_bind] at h
    have hcontent := (E.leads_after (endTag result.1) (E.after content t)).aborted h
    refine (htag.trans (adds_content_nested hE hcontent)).trans ?_
    exact (adds_endTag result.1).mono fun c hc hkind => absurd hkind hc
  · rename_i hclosed
    rw [if_neg hclosed]
    exact htag

theorem keeps_elementRule (hs : s.Sees (·.kind ∈ Kind.openers)) :
    E.Keeps (Crafted q) q elementRule s := by
  have hinside : E.Keeps (Crafted q) q elementInside (s.enter E.limits []) := by
    rw [elementInside]
    refine .bind (keeps_startTag hE (hs.enter _ _)) ?_
    intro hevery htame
    rw [after_when] at htame ⊢
    split at htame
    · rename_i hopened
      rw [if_pos hopened]
      exact Keeps.bind (keeps_content hE) (keeps_regular hE (by simp)) hevery htame
    · rename_i hclosed
      rw [if_neg hclosed]
      exact hevery
  rw [elementRule_eq]
  intro hevery htame
  rw [after_nodeOf] at htame ⊢
  have htame := htame.of_close
  refine (hinside (State.every_enter_nil _) htame).close hevery ?_
  obtain ⟨more, hmore⟩ := exists_signs_elementInside (State.signs_enter_nil (s := s) E.limits)
    htame.aborted
  obtain ⟨others, hothers, hnested⟩ := adds_elementInside hE htame.aborted
  rw [State.enter_children, List.append_nil] at hothers
  exact
    { filled := fun hnil => absurd hnil (Shape.ne_nil_of_signs hmore)
      sound := fun _ h => (by cases h)
      opening := fun h => (by cases h)
      vector := fun h => (by cases h)
      nested := fun _ c hc => hnested c (hothers ▸ List.mem_reverse.1 hc)
      matched := fun hq _ => matched_elementInside rfl (htame.quiet hq) }

/-! ## Operands -/

/-- A vector literal that opens with a sign for it is as it should be. -/
theorem keeps_vectorLiteral (hs : s.Sees (·.kind ∈ Kind.openers)) :
    E.Keeps (Crafted q) q (nodeOf .vectorLiteral vectorBody) s := by
  intro hevery htame
  rw [after_nodeOf] at htame ⊢
  have htame := htame.of_close
  refine (keeps_regular hE (by simp) (State.every_enter_nil _) htame).close hevery ?_
  rw [vectorBody] at htame ⊢
  have henter := (E.leads_after _ (s.enter E.limits [])).aborted htame.aborted
  have hmem : s.token.kind ∈ Kind.openers := hs ((State.Leads.enter s E.limits []).aborted henter)
  obtain ⟨more, hmore⟩ := exists_signs_take_enter htame.aborted
  have htext : s.token.text = s.token.kind.text :=
    Place.next_text_of_kind rfl (Kind.isSome_spelling_of_mem_openers hmem)
  rw [htext, State.signs] at hmore
  exact
    { filled := fun hnil => absurd hnil (Shape.ne_nil_of_signs hmore)
      sound := fun _ h => (by cases h)
      opening := fun h => (by cases h)
      vector := fun _ => .inl ⟨_, hmem, more, hmore⟩
      nested := fun h => (by cases h)
      matched := fun _ h => (by cases h) }

theorem keeps_operand : E.Keeps (Crafted q) q operand s := by
  refine .bind (fun hs _ => hs) ?_
  rw [val_look, after_look, glimpse_kind]
  split
  case h_8 =>
    rename_i hkind
    have hopens : (E.after opensVector (s.inMode .exprStart)).Sees (·.kind ∈ Kind.openers) := by
      rw [after_opensVector]
      exact fun _ => Place.ahead_mem_openers hkind
    refine .bind (keeps_regular hE (by simp)) ?_
    split
    · exact keeps_vectorLiteral hE hopens
    · exact hE.element _ hopens
  all_goals exact keeps_regular hE (by simp +decide)

/-- What the operand of a construction or a chain is. -/
theorem keeps_head (new : Bool) :
    E.Keeps (Crafted q) q (if new then call .construction else operand) s := by
  cases new with
  | true => exact keeps_regular hE (by simp)
  | false => exact keeps_operand hE

theorem keeps_chained : E.Keeps (Crafted q) q chained s :=
  .bind (fun hs _ => hs) (.bind (keeps_head hE _) (keeps_regular hE (by simp [chain])))

theorem keeps_unaryRule : E.Keeps (Crafted q) q unaryRule s := by
  refine .bind (fun hs _ => hs) ?_
  split
  · exact keeps_chained hE
  · exact keeps_regular hE (by simp +decide [takeOperator])

theorem keeps_constructionRule : E.Keeps (Crafted q) q constructionRule s := by
  rw [constructionRule_eq]
  refine .node (.bind (keeps_regular hE (by simp)) (.bind (fun ht _ => ht) ?_)) fun _ _ => ?_
  · rw [val_look, after_look]
    split
    · exact keeps_regular hE (by simp)
    · exact .bind (keeps_head hE _) (keeps_regular hE (by simp))
  · rw [after_bind, after_bind, val_bind, val_bind, val_look, after_look, after_takeWord,
      glimpse_kind]
    have hsigns : ((s.enter E.limits []).takeAs E.limits .newKw none).signs =
        [(.newKw, (s.enter E.limits []).token.text)] := by
      rw [State.signs_takeAs, State.signs_enter_nil, List.nil_append]
    generalize (s.enter E.limits []).takeAs E.limits .newKw none = t at *
    rw [after_ite, val_ite]
    split
    · rename_i hkind
      rw [after_bind, after_pure, val_bind, val_pure]
      exact crafted_newVector (eq_of_beq hkind) hsigns
    · rw [after_bind, val_bind]
      generalize hhead : E.after (if (State.glimpse (t.place.next .exprStart).1).isWord "new" = true
        then call .construction else operand) (t.inMode .exprStart) = u
      have htaken : t.signs <+: (E.after constructionRest u).signs := by
        rw [← hhead]
        exact (signs_prefix_after _ (t.inMode .exprStart)).trans (signs_prefix_after _ _)
      have hkind : (E.val constructionRest u).1 = .newExpr := yields_constructionRest.val E u
      rw [hkind]
      refine Crafted.of_unmarked q _ _ rfl (fun hnil => ?_) fun _ h => (by cases h)
      rw [State.signs.eq_1 (E.after _ _), hnil, hsigns] at htaken
      exact absurd (List.prefix_nil.1 htaken) (List.cons_ne_nil _ _)

end Setting

/-! ## At every depth -/

variable [Alphabet]

namespace Setting

/-- What is rejected goes into an error node. -/
theorem children_reject {E : Setting} {s : State} (error : SyntaxError) :
    ∃ kids, (E.after (reject error) s).children = .node .error none kids :: s.children := by
  have hnode (body : Parser Unit) : ∃ kids,
      (E.after (report error >>= fun _ => nodeOf .error body) (s.inMode .operator)).children =
        .node .error none kids :: s.children := by
    rw [after_bind, after_nodeOf, State.close_children, after_report, State.report_children]
    exact ⟨_, rfl⟩
  rw [reject, after_bind, after_ite]
  split
  · exact hnode (pure ())
  · exact hnode (take none)

/-- **The rules make nodes as they should be**, at every depth. -/
theorem crafts_atDepth (limits : Limits) (q : Prop) (depth : Nat) :
    (atDepth limits depth).Crafts q := by
  induction depth with
  | zero =>
    have hgiven : (givingUp limits).Upholds (Crafted q) q := fun _ _ _ _ h => (by cases h.aborted)
    have hreject (rule : Rule) (s : State) :
        (atDepth limits 0).Keeps (Crafted q) q (.call rule) s := by
      intro hs htame
      have hkeeps := keeps_of_regular (s := s) (Crafted.of_unmarked q) hgiven
        (regular_reject .nestingTooDeep)
      change (State.apply limits 0 rule s).Tame q at htame
      change (State.apply limits 0 rule s).Every (Crafted q)
      rw [apply_zero] at htame ⊢
      exact hkeeps hs htame
    refine ⟨fun rule s _ => hreject rule s, fun s _ => hreject .element s,
      fun s c cs _ hc hkind => ?_⟩
    obtain ⟨kids, hkids⟩ := children_reject (E := givingUp limits) (s := s) .nestingTooDeep
    change (State.apply limits 0 .element s).children = _ at hc
    rw [apply_zero, hkids, List.cons.injEq] at hc
    obtain ⟨rfl, -⟩ := hc
    cases hkind
  | succ depth ih =>
    have hrule (rule : Rule) (s : State) (h : (atDepth limits depth).Keeps (Crafted q) q
        (Grammar.rule rule) s) : (atDepth limits (depth + 1)).Keeps (Crafted q) q
        (.call rule) s := h
    refine ⟨fun rule s hne => hrule rule s ?_,
      fun s hs => hrule .element s (keeps_elementRule ih hs),
      fun s c cs ha hc _ => ?_⟩
    · cases rule with
      | statement => exact keeps_regular ih regular_statementRule
      | expression min r => exact keeps_regular ih (regular_expressionRule min r)
      | unary => exact keeps_unaryRule ih
      | construction => exact keeps_constructionRule ih
      | type => exact keeps_regular ih regular_typeRule
      | element => exact absurd rfl hne
    · rw [atDepth_succ] at ha hc
      change (after _ elementRule s).aborted = none at ha
      change (after _ elementRule s).children = _ at hc
      rw [elementRule_eq, after_nodeOf] at ha hc
      rw [State.close_children, List.cons.injEq] at hc
      rw [State.close_aborted] at ha
      obtain ⟨more, hmore⟩ := exists_signs_elementInside
        (State.signs_enter_nil (atDepth limits depth).limits) ha
      obtain ⟨rfl, -⟩ := hc
      rw [State.enter_token ((leads_after _ _ _).aborted ha)] at hmore
      exact ⟨more, by rw [Shape.signs_node]; exact hmore⟩

end Setting

/-- **All nodes of a parse are as they should be.**  If nothing is reported, nothing is wrong. -/
theorem State.every_run {limits : Limits} {text : Text}
    (ha : (State.run limits text).aborted = none) :
    (State.run limits text).Every (Crafted ((State.run limits text).reports = [])) := by
  have hkeeps := Setting.keeps_regular (s := State.start text)
    (Setting.crafts_atDepth limits ((State.run limits text).reports = []) limits.maxDepth)
    regular_sourceFile
  refine hkeeps (fun c hc => (by cases hc)) ⟨ha, fun hreports => ?_⟩
  exact State.quiet_run ha hreports

end ActionScript
