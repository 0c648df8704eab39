import ActionScript.Proofs.Printing.Phrases

/-!
# Operands are read again

Names, numbers, lists in brackets, accesses, calls and operators in front or behind: each is legible
if what it is made of is.

* `Setting.rounds_separate`: items with commas in between are read again, one round each.
* `Phrase.Readable.member`, `Expr.legible_array` and their like: **one lemma for each form of
  operand.**
-/

set_option autoImplicit false

namespace ActionScript

open ActionScript.Parser ActionScript.Grammar Trivia

/-! ## Items with commas in between -/

theorem source_list_append (kind opening closing : Kind) (items : List Shape) (tail : List Trivia)
    (more : Text) : (Shape.list kind opening closing items tail).source ++ more =
      (Shape.sign opening none gap).source ++ (Shape.sourceAll (Shape.separate items) ++
        ((Shape.sign closing none tail).source ++ more)) := by
  simp [Shape.list, Shape.source, Shape.sourceAll, Shape.sourceAll_append]

variable [Alphabet]

/-- What may come behind an item: a comma, or the sign that closes the list. -/
def Text.EndsItem (cs : Text) : Prop := cs.Solid ∧ (cs.ahead = .comma ∨ cs.ahead ∈ closingKinds)

theorem Text.endsItem_comma {rest : Text} (h : rest.Solid) :
    Text.EndsItem ((Shape.sign .comma none gap).source ++ rest) :=
  ⟨Mode.operator.solid_sign .comma rfl none _ _,
    .inl (Mode.operator.reads_sign .comma rfl (ends_gap h) none).ahead⟩

theorem Text.endsItem_closing (k : Kind) (hk : k ∈ closingKinds)
    (hsign : Mode.operator.hasSign k = true) {tail : List Trivia} {more : Text}
    (h : Ends tail more) : Text.EndsItem ((Shape.sign k none tail).source ++ more) := by
  refine ⟨Mode.operator.solid_sign k hsign none _ _, .inr ?_⟩
  rw [(Mode.operator.reads_sign k hsign h none).ahead]
  exact hk

/-- What opens an expression neither separates items nor closes a list. -/
theorem Text.Opens.ahead_ne {cs : Text} (h : cs.Opens) :
    ∀ k ∈ [Kind.comma, .eof, .rParen, .rBrack, .rCurly, .semicolon], cs.ahead ≠ k := by
  have hnot : ∀ k ∈ [Kind.comma, .eof, .rParen, .rBrack, .rCurly, .semicolon],
      expressionFirst.contains k = false := by
    decide
  intro k hk heq
  have hfirst := h.first
  rw [heq, hnot k hk] at hfirst
  cases hfirst

namespace Setting

variable {E : Setting} {α : Type}

/-- A shape is read by a parser of items. -/
structure ReadsItem (E : Setting) (item : Parser α) (a : α) (x : Shape) : Prop where
  opens : ∀ rest : Text, rest.Solid → Text.Opens (x.source ++ rest)
  goes : ∀ rest : Text, rest.EndsItem → ∀ made,
    E.Goes item ⟨x.source ++ rest, .operator, made⟩ a ⟨rest, .operator, x :: made⟩

variable {item : Parser α} {a : α} {items : List Shape} {close : Text}

theorem solid_separate (hitems : ∀ x ∈ items, E.ReadsItem item a x) (hclose : close.Solid) :
    Text.Solid (Shape.sourceAll (Shape.separate items) ++ close) := by
  induction items with
  | nil => exact hclose
  | cons x xs ih =>
    have hx := (hitems x List.mem_cons_self).opens
    cases xs with
    | nil => simpa [Shape.separate, Shape.sourceAll] using (hx close hclose).solid
    | cons y ys =>
      have hrest := ih fun z hz => hitems z (List.mem_cons_of_mem x hz)
      simpa [Shape.separate, Shape.sourceAll] using (hx _ (Text.endsItem_comma hrest).1).solid

/-- **Items with commas in between are read again**, by a repetition that goes on as long as a comma
follows the item that it has read. -/
theorem rounds_separate {body : Parser Bool} (hitems : ∀ x ∈ items, E.ReadsItem item a x)
    (hclose : close.Solid)
    (hstop : ∀ made, E.Goes body ⟨close, .operator, made⟩ false ⟨close, .operator, made⟩)
    (hmore : ∀ x, E.ReadsItem item a x → ∀ rest : Text, rest.Solid → ∀ made,
      E.Goes body ⟨x.source ++ ((Shape.sign .comma none gap).source ++ rest), .operator, made⟩ true
        ⟨rest, .operator, Shape.sign .comma none gap :: x :: made⟩)
    (hlast : ∀ x, E.ReadsItem item a x → ∀ made,
      E.Goes body ⟨x.source ++ close, .operator, made⟩ false ⟨close, .operator, x :: made⟩)
    (made : List Shape) :
    E.Rounds body ⟨Shape.sourceAll (Shape.separate items) ++ close, .operator, made⟩
      ⟨close, .operator, (Shape.separate items).reverse ++ made⟩ := by
  induction items generalizing made with
  | nil => exact .last (hstop made)
  | cons x xs ih =>
    have hx := hitems x List.mem_cons_self
    have htail : ∀ z ∈ xs, E.ReadsItem item a z := fun z hz => hitems z (List.mem_cons_of_mem x hz)
    cases xs with
    | nil =>
      rw [Shape.separate, List.intersperse_singleton, Shape.sourceAll, Shape.sourceAll,
        List.append_nil]
      exact .last (hlast x hx made)
    | cons y ys =>
      have hshapes : Shape.separate (x :: y :: ys) =
        x :: Shape.sign .comma none gap :: Shape.separate (y :: ys) := rfl
      have hmade : (Shape.separate (x :: y :: ys)).reverse ++ made =
          (Shape.separate (y :: ys)).reverse ++ (Shape.sign .comma none gap :: x :: made) := by
        simp [hshapes]
      rw [hmade, hshapes, Shape.sourceAll, Shape.sourceAll, List.append_assoc, List.append_assoc]
      exact .more (hmore x hx _ (solid_separate htail hclose) made) (ih htail _)

section
variable (hl : E.limits.Endless)
include hl

theorem goes_comma {rest : Text} (h : rest.Solid) (made : List Shape) :
    E.Goes (eat .comma) ⟨(Shape.sign .comma none gap).source ++ rest, .operator, made⟩ true
      ⟨rest, .operator, Shape.sign .comma none gap :: made⟩ :=
  goes_eat hl (Mode.operator.reads_sign .comma rfl (ends_gap h) none)

variable {kind opening closing : Kind} {mode : Mode} {tail : List Trivia} {more : Text}

omit hl in
theorem reads_opening (mode : Mode) (opening : Kind) (hitems : ∀ x ∈ items, E.ReadsItem item a x)
    (hopening : mode.hasSign opening = true) (hclose : close.Solid) :
    mode.Reads ((Shape.sign opening none gap).source ++
      (Shape.sourceAll (Shape.separate items) ++ close)) opening opening.text gap
      (Shape.sourceAll (Shape.separate items) ++ close) :=
  mode.reads_sign opening hopening (ends_gap (solid_separate hitems hclose)) none

/-- **A list in brackets is read again**, by a repetition of its items between its brackets. -/
theorem goes_list {body : Parser Bool} (hitems : ∀ x ∈ items, E.ReadsItem item a x)
    (hopening : mode.hasSign opening = true) (hclosing : closing ∈ [Kind.rParen, .rBrack, .rCurly])
    (hends : Ends tail more)
    (hstop : ∀ rest : Text, rest.ahead = closing → ∀ made,
      E.Goes body ⟨rest, .operator, made⟩ false ⟨rest, .operator, made⟩)
    (hmore : ∀ x, E.ReadsItem item a x → ∀ rest : Text, rest.Solid → ∀ made,
      E.Goes body ⟨x.source ++ ((Shape.sign .comma none gap).source ++ rest), .operator, made⟩ true
        ⟨rest, .operator, Shape.sign .comma none gap :: x :: made⟩)
    (hlast : ∀ x, E.ReadsItem item a x → ∀ rest : Text, rest.EndsItem → rest.ahead = closing →
      ∀ made, E.Goes body ⟨x.source ++ rest, .operator, made⟩ false ⟨rest, .operator, x :: made⟩) :
    E.Goes
      (do
        require .operator opening
        take none
        loop body
        expect closing)
      ⟨(Shape.list kind opening closing items tail).source ++ more, mode, []⟩ ()
      ⟨more, .operator, (Shape.sign opening none gap :: Shape.separate items ++
        [Shape.sign closing none tail]).reverse⟩ := by
  have hfacts : ∀ k ∈ [Kind.rParen, .rBrack, .rCurly], k ∈ closingKinds ∧
      Mode.operator.hasSign k = true := by
    decide
  obtain ⟨hcloses, hsign⟩ := hfacts closing hclosing
  have hread := Mode.operator.reads_sign closing hsign hends none
  have hclose := Text.endsItem_closing closing hcloses hsign hends
  have hopen := reads_opening mode opening hitems hopening hclose.1
  have hkids : (Shape.sign opening none gap :: Shape.separate items ++
      [Shape.sign closing none tail]).reverse =
      Shape.sign closing none tail :: ((Shape.separate items).reverse ++
        [Shape.sign opening none gap]) := by
    simp
  rw [hkids, source_list_append]
  refine (goes_require _ _ _ _ _).bind ((goes_take hl hopen none).bind ?_)
  refine (goes_loop (rounds_separate hitems hclose.1 ?_ hmore ?_ _)).bind (goes_expect hl hread)
  · exact hstop _ hread.ahead
  · exact fun x hx made => hlast x hx _ hclose hread.ahead made

/-- The elements of an array are read again. -/
theorem goes_elements (hitems : ∀ x ∈ items, E.ReadsItem (assignment .element) () x)
    (hopening : mode.hasSign .lBrack = true) (hends : Ends tail more) :
    E.Goes elements ⟨(Shape.list kind .lBrack .rBrack items tail).source ++ more, mode, []⟩ ()
      ⟨more, .operator, (Shape.sign .lBrack none gap :: Shape.separate items ++
        [Shape.sign .rBrack none tail]).reverse⟩ := by
  refine goes_list hl hitems hopening (by decide) hends ?_ ?_ ?_
  · intro rest hclosing made
    refine (goes_peek _ _ _).bind (.of_pos ?_ (goes_pure _ _))
    rw [hclosing]
    rfl
  · intro x hx rest hrest made
    have hcomma := Text.endsItem_comma hrest
    have hne := (hx.opens _ hcomma.1).ahead_ne
    refine (goes_peek _ _ _).bind (.of_neg ?_ (.of_neg ?_ (.of_neg ?_ ?_)))
    · simp [hne]
    · simp [hne]
    · simp [closers, hne]
    · exact (hx.goes _ hcomma made).bind (goes_comma hl hrest _)
  · intro x hx rest hrest hclosing made
    have hne := (hx.opens _ hrest.1).ahead_ne
    refine (goes_peek _ _ _).bind (.of_neg ?_ (.of_neg ?_ (.of_neg ?_ ?_)))
    · simp [hne]
    · simp [hne]
    · simp [closers, hne]
    · refine (hx.goes _ hrest made).bind (goes_eat_none ?_)
      rw [hclosing]
      decide

/-- The items of a list in brackets are read again. -/
theorem goes_delimited {b : Brackets} {item : Parser Bool}
    (hitems : ∀ x ∈ items, E.ReadsItem item true x) (hopening : mode.hasSign b.opening = true)
    (hclosing : b.closing ∈ [Kind.rParen, .rBrack, .rCurly])
    (hfirst : b.first.contains b.closing = false) (hends : Ends tail more) :
    E.Goes (delimited b item)
      ⟨(Shape.list kind b.opening b.closing items tail).source ++ more, mode, []⟩ ()
      ⟨more, .operator, (Shape.sign b.opening none gap :: Shape.separate items ++
        [Shape.sign b.closing none tail]).reverse⟩ := by
  have hfacts : ∀ k ∈ [Kind.rParen, .rBrack, .rCurly], k ≠ .comma ∧
      k ∈ [Kind.comma, .eof, .rParen, .rBrack, .rCurly, .semicolon] := by
    decide
  obtain ⟨hcomma, hmem⟩ := hfacts b.closing hclosing
  refine goes_list hl hitems hopening hclosing hends ?_ ?_ ?_
  · intro rest hrest made
    refine (goes_peek _ _ _).bind (.of_pos ?_ (goes_pure _ _))
    simp [hrest]
  · intro x hx rest hrest made
    have hends := Text.endsItem_comma hrest
    have hne := (hx.opens _ hends.1).ahead_ne
    refine (goes_peek _ _ _).bind (.of_neg ?_ (.of_neg ?_ ?_))
    · simp [hne, hne _ hmem]
    · simp [hne]
    · refine (hx.goes _ hends made).bind (.of_neg (by simp) ?_)
      exact (goes_comma hl hrest _).bind (.of_pos rfl (goes_pure _ _))
  · intro x hx rest hrest hcloses made
    have hne := (hx.opens _ hrest.1).ahead_ne
    refine (goes_peek _ _ _).bind (.of_neg ?_ (.of_neg ?_ ?_))
    · simp [hne, hne _ hmem]
    · simp [hne]
    · refine (hx.goes _ hrest made).bind (.of_neg (by simp) ?_)
      refine (goes_eat_none (by rwa [hcloses])).bind (.of_neg (by simp) ?_)
      refine (goes_peek _ _ _).bind (.of_neg ?_ (goes_pure _ _))
      simp [hcloses, hfirst]

/-- A key with a value behind it is read as an item of an object. -/
theorem readsItem_pair {value : Shape} (h : E.ReadsItem (assignment .value) () value) (key : Name) :
    E.ReadsItem property? true (.node .pair none
      [(Shape.ident key gap).withField .key, Shape.sign .colon none gap, value]) := by
  have hsource (rest : Text) : (Shape.node .pair none [(Shape.ident key gap).withField .key,
      Shape.sign .colon none gap, value]).source ++ rest =
      (Shape.ident key gap).source ++ ((Shape.sign .colon none gap).source ++
        (value.source ++ rest)) := by
    simp only [Shape.source, Shape.sourceAll, Shape.source_withField, List.append_assoc,
      List.nil_append]
  have hvalue {rest : Text} (hrest : rest.Solid) := ends_gap (h.opens rest hrest).solid
  have hcolon {rest : Text} (hrest : rest.Solid) :=
    Mode.operator.reads_sign .colon rfl (hvalue hrest) none
  have hkey {rest : Text} (hrest : rest.Solid) := Mode.operator.reads_name rfl key <|
    ends_gap (Mode.operator.solid_sign .colon rfl none gap (value.source ++ rest))
  refine ⟨fun rest hrest => ?_, fun rest hrest made => ?_⟩
  · rw [hsource]
    refine Text.opens_of_reads (hkey hrest) ?_ (by decide)
    rw [Shape.source_ident_append]
    exact key.isWord_text.solid _
  · rw [hsource]
    refine (goes_peek _ _ _).bind (.of_pos ?_ (Goes.bind (goes_nodeOf hl ?_) (goes_pure _ _)))
    · rw [(hkey hrest.1).ahead]
      decide
    · rw [(hkey hrest.1).ahead]
      refine (goes_leaf hl (hkey hrest.1) .ident).bind ((goes_label _ _ _ _ _).bind ?_)
      exact (goes_expect hl (hcolon hrest.1)).bind (h.goes rest hrest _)

end

end Setting

namespace Phrase

open Setting

variable {limits : Limits} {n : Nat} {x : Phrase} {tier : Precedence} {free : Bool}

/-- **A legible phrase is read as an item**, in parentheses if it is looser than an assignment. -/
theorem Legible.readsItem (hl : limits.Endless) (h : Legible limits n tier free x) {depth : Nat}
    (hdepth : n + 4 ≤ depth) (field : Field) :
    (atDepth limits depth).ReadsItem (assignment field) ()
      (Shape.slot field (tier.rank < Precedence.assignment.rank) x gap) := by
  refine ⟨fun rest hrest => h.opens_slot hl _ _ _ _ (ends_gap hrest), fun rest hrest made => ?_⟩
  have hnext : rest.Follows Precedence.assignment.rank ∧
      rest.Stops .assignment { noSequence := true } := by
    rcases hrest.2 with hcomma | hclosing
    · exact Text.follows_of_comma hcomma _ _ rfl
    · exact Text.follows_of_closing _ hclosing _ _ _
  exact h.goes_slot hl hdepth Precedence.assignment.rank .assignment { noSequence := true } rfl
    (by decide) (by decide) nofun (ends_gap hrest.1) hnext field _ made

/-- An array or an object is read again, if its operand is. -/
theorem Legible.of_list {α : Type} {kind opening closing : Kind} {items : List Shape}
    {item : Parser α} {a : α} {next : Glimpse → Parser Unit}
    (hnext : operand = Parser.look .exprStart >>= next)
    (hbrackets : (opening, closing) ∈ [(Kind.lBrack, Kind.rBrack), (.lCurly, .rCurly)])
    (hitems : ∀ depth ≥ n, ∀ x ∈ items, (atDepth limits depth).ReadsItem item a x)
    (hoperand : ∀ depth ≥ n, ∀ tail more, Ends tail more → ∀ made,
      (atDepth limits depth).Goes (next ⟨opening, opening.text, false⟩)
        ⟨(Shape.list kind opening closing items tail).source ++ more, .exprStart, made⟩ ()
        ⟨more, .operator, Shape.list kind opening closing items tail :: made⟩) (free : Bool) :
    Legible limits n .primary free (Shape.list kind opening closing items) := by
  have hfacts : ∀ b ∈ [(Kind.lBrack, Kind.rBrack), (.lCurly, .rCurly)],
      b.2 ∈ closingKinds ∧ Mode.operator.hasSign b.2 = true ∧ Mode.operator.hasSign b.1 = true ∧
      Mode.exprStart.hasSign b.1 = true ∧ expressionFirst.contains b.1 = true ∧
      leadingOperator? ⟨b.1, b.1.text, false⟩ = none ∧ b.1 ≠ .name := by
    decide
  obtain ⟨hcloses, hsign, hafter, hbefore, hfirst, hleading, hname⟩ := hfacts _ hbrackets
  have hclose {tail : List Trivia} {more : Text} (hends : Ends tail more) :=
    (Text.endsItem_closing closing hcloses hsign hends).1
  have hread (mode : Mode) (hmode : mode.hasSign opening = true) {tail : List Trivia} {more : Text}
      (hends : Ends tail more) :=
    reads_opening mode opening (hitems n (Nat.le_refl n)) hmode (hclose hends)
  have hchains := Chains.of_operand ⟨opening, opening.text, false⟩ hnext (n := n)
    (x := Shape.list kind opening closing items) ?_ hleading ?_ hoperand
  · refine ⟨hchains.readable free, fun tail more hends => ?_⟩
    rw [source_list_append]
    exact Text.opens_of_reads (hread .operator hafter hends)
      (Mode.operator.solid_sign opening hafter none _ _) hfirst
  · intro tail more hends
    rw [source_list_append]
    exact (hread .exprStart hbefore hends).glimpse
  · simp [Glimpse.isWord, hname]

end Phrase

/-! ## Names and numbers -/

namespace Phrase

open Setting Shape

variable {limits : Limits} (hl : limits.Endless)
include hl

/-- A name begins a chain, on a new line too. -/
theorem readable_name (n : Name) {lead : List Trivia} (hlead : Leads lead) (m : Nat) (free : Bool) :
    Readable limits m .primary free fun tail =>
      .node .ident none [.token .name none lead n.text tail] := by
  have hsource (tail : List Trivia) (more : Text) :
      (Shape.node .ident none [.token .name none lead n.text tail]).source ++ more =
        flatten lead ++ ((ident n tail).source ++ more) := by
    simp [source, sourceAll, source_ident]
  have hread {tail : List Trivia} {more : Text} (hends : Ends tail more) :=
    Mode.ReadsBehind.of_leads hlead (Mode.exprStart.reads_name rfl n hends) rfl <| by
      rw [source_ident_append]
      exact n.isWord_text.solid _
  have hnew : Glimpse.isWord ⟨.name, n.text, lead.any breaksLine⟩ "new" = false := by
    refine Bool.eq_false_iff.2 fun hword => ?_
    have htext : n.text = "new".toList := by simpa [Glimpse.isWord] using hword
    have hfree := n.isFree.1
    rw [htext] at hfree
    exact absurd hfree (by decide +kernel)
  refine Chains.readable (Chains.of_operand _ rfl ?_ ?_ hnew ?_) free
  · intro tail more hends
    rw [hsource]
    exact (hread hends).glimpse
  · rw [leadingOperator?, n.isFree.1]
    rfl
  · intro depth _ tail more hends made
    rw [hsource]
    change (atDepth limits depth).Goes (wordOperand ⟨.name, n.text, lead.any breaksLine⟩) _ _ _
    rw [wordOperand, n.isFree.1]
    exact goes_leaf hl (hread hends) .ident

end Phrase

namespace Expr

open Phrase Setting Shape

variable {limits : Limits} (hl : limits.Endless)
include hl

theorem legible_name (n : Name) (m : Nat) (free : Bool) :
    Legible limits m .primary free (shapeOfReference (.name n)) := by
  refine ⟨readable_name hl n (.inl rfl) m free, fun tail more hends => ?_⟩
  refine Text.opens_of_reads (Mode.operator.reads_name rfl n hends) ?_ (by decide)
  rw [shapeOfReference, source_ident_append]
  exact n.isWord_text.solid _

theorem legible_number (k : Numeral) (m : Nat) (free : Bool) :
    Legible limits m .primary free (shape (.number k)) := by
  have hsource (tail : List Trivia) (more : Text) :
      ((number k).shape tail).source ++ more = k.text ++ (flatten tail ++ more) := by
    simp [shape, source, sourceAll, flatten]
  have hread (mode : Mode) (hcode : mode.isCode = true) {tail : List Trivia} {more : Text}
      (hends : Ends tail more) := mode.reads_numeral hcode k hends
  have hchains : Chains limits m (number k).shape := by
    refine Chains.of_operand ⟨.number, k.text, false⟩ rfl ?_ rfl rfl ?_
    · intro tail more hends
      rw [hsource]
      exact (hread .exprStart rfl hends).glimpse
    · intro depth _ tail more hends made
      rw [hsource]
      exact goes_leaf hl (hread .exprStart rfl hends) .numberLiteral
  refine ⟨hchains.readable free, fun tail more hends => ?_⟩
  rw [hsource]
  exact Text.opens_of_reads (hread .operator rfl hends) (k.solid _) (by decide)

end Expr

/-! ## Accesses -/

namespace Phrase

open Setting Shape

variable {limits : Limits} {m n : Nat} {x y : Phrase} {tier : Precedence} {free : Bool}
  (hl : limits.Endless)

theorem solid_ident (name : Name) (tail : List Trivia) (more : Text) :
    Text.Solid ((ident name tail).source ++ more) := by
  rw [source_ident_append]
  exact name.isWord_text.solid _

/-- A property of what a phrase stands for. -/
def member (x : Phrase) (property : Name) : Phrase :=
  x.heads .memberExpr .object fun tail =>
    [sign .dot none gap, (ident property tail).withField .property]

/-- A part of what a phrase stands for. -/
def subscript (x index : Phrase) : Phrase :=
  x.heads .subscriptExpr .object fun tail =>
    [sign .lBrack none gap, (index gap).withField .index, sign .rBrack none tail]

/-- A call of what a phrase stands for. -/
def call (x : Phrase) (arguments : List Shape) : Phrase :=
  x.heads .callExpr .function fun tail =>
    [(list .argList .lParen .rParen arguments tail).withField .arguments]

/-- A phrase with an update behind it. -/
def update (x : Phrase) (op : Kind) : Phrase :=
  x.heads .updateExpr .argument fun tail => [sign op (some .operator) tail]

include hl

/-- An access to a property goes on with a chain. -/
theorem Readable.member (h : Readable limits n .primary free x) (property : Name) (free' : Bool) :
    ReadableOn limits n .primary free' x (x.member property) := by
  have hsource (tail : List Trivia) (more : Text) :
      Shape.sourceAll [sign .dot none gap, (ident property tail).withField .property] ++ more =
        (sign .dot none gap).source ++ ((ident property tail).source ++ more) := by
    simp [sourceAll]
  have hends' (tail : List Trivia) (more : Text) := ends_gap (solid_ident property tail more)
  refine h.link (Nat.le_refl n) ?_ ?_ free'
  · intro tail more hends
    rw [hsource]
    exact Mode.operator.solid_sign .dot rfl none _ _
  · intro depth _ tail more hends made
    have hdot := Mode.operator.reads_sign .dot rfl (hends' tail more) none
    have htoken := Mode.operator.reads_name rfl property hends
    have hproperty : (atDepth limits depth).Goes propertyName
        ⟨(ident property tail).source ++ more, .operator,
          [sign .dot none gap, (x gap).withField .object]⟩ ()
        ⟨more, .operator, [(ident property tail).withField .property, sign .dot none gap,
          (x gap).withField .object]⟩ := by
      refine (goes_peek _ _ _).bind ?_
      rw [htoken.ahead]
      exact (goes_leaf hl htoken .ident).bind (goes_label _ _ _ _ _)
    rw [hsource]
    refine (goes_look_reads _ _ _ _ hdot).bind (Goes.bind (goes_wrap hl ?_) (goes_pure _ _))
    refine (goes_take hl hdot none).bind ((goes_sees _ _ _ _).bind (.of_neg ?_ ?_))
    · rw [htoken.ahead]
      decide
    · exact hproperty.bind (goes_pure _ _)

/-- A subscript goes on with a chain. -/
theorem Readable.subscript (h : Readable limits n .primary free x) {index : Phrase} {g : Bool}
    (hindex : Legible limits m tier g index) (hle : m + 2 ≤ n) (free' : Bool) :
    ReadableOn limits n .primary free' x (x.subscript index) := by
  have hsource (tail : List Trivia) (more : Text) :
      Shape.sourceAll [sign .lBrack none gap, (index gap).withField .index,
        sign .rBrack none tail] ++
        more = (sign .lBrack none gap).source ++
          ((index gap).source ++ ((sign .rBrack none tail).source ++ more)) := by
    simp [sourceAll]
  have hclose {tail : List Trivia} {more : Text} (hends : Ends tail more) :
      Text.EndsItem ((sign .rBrack none tail).source ++ more) :=
    Text.endsItem_closing .rBrack (by decide) rfl hends
  have hsolid {tail : List Trivia} {more : Text} (hends : Ends tail more) :=
    (hindex.opens gap _ (ends_gap (hclose hends).1)).solid
  refine h.link (Nat.le_refl n) ?_ ?_ free'
  · intro tail more hends
    rw [hsource]
    exact Mode.operator.solid_sign .lBrack rfl none _ _
  · intro depth hdepth tail more hends made
    have hdeep : m + 2 ≤ depth := by omega
    have hopen := Mode.operator.reads_sign .lBrack rfl (ends_gap (hsolid hends)) none
    have hread := Mode.operator.reads_sign .rBrack rfl hends none
    have hinside := hindex.goes_closed hdeep (ends_gap (hclose hends).1)
      (by rw [hread.ahead]; decide) .operator [sign .lBrack none gap, (x gap).withField .object]
    rw [hsource]
    refine (goes_look_reads _ _ _ _ hopen).bind (Goes.bind (goes_wrap hl ?_) (goes_pure _ _))
    refine (goes_take hl hopen none).bind ((goes_callIn hinside).bind ?_)
    exact (goes_expect hl hread).bind (goes_pure _ _)

end Phrase

/-! ## Lists in brackets -/

namespace Expr

open Phrase Setting Shape

/-- What each of several properties holds. -/
def values : List Property → List Expr
  | [] => []
  | .mk _ value :: properties => value :: values properties

variable {limits : Limits} {n : Nat} (hl : limits.Endless)
include hl

theorem readsItem_shapesAll {es : List Expr}
    (hes : ∀ e ∈ es, Legible limits n e.tier (!e.bareIn) e.shape) {depth : Nat}
    (hdepth : n + 4 ≤ depth) (field : Field) :
    ∀ x ∈ shapesAll field es, (atDepth limits depth).ReadsItem (assignment field) () x := by
  induction es with
  | nil => exact fun x hx => absurd hx List.not_mem_nil
  | cons e es ih =>
    intro x hx
    rw [shapesAll, List.mem_cons] at hx
    rcases hx with rfl | hx
    · exact (hes e List.mem_cons_self).readsItem hl hdepth field
    · exact ih (fun f hf => hes f (List.mem_cons_of_mem e hf)) x hx

theorem readsItem_shapesOfProperties {ps : List Property}
    (hps : ∀ e ∈ values ps, Legible limits n e.tier (!e.bareIn) e.shape) {depth : Nat}
    (hdepth : n + 4 ≤ depth) :
    ∀ x ∈ shapesOfProperties ps, (atDepth limits depth).ReadsItem property? true x := by
  match ps with
  | [] => exact fun x hx => absurd hx List.not_mem_nil
  | .mk key value :: properties =>
    intro x hx
    rw [shapesOfProperties, List.mem_cons] at hx
    rcases hx with rfl | hx
    · exact readsItem_pair hl ((hps value List.mem_cons_self).readsItem hl hdepth .value) key
    · exact readsItem_shapesOfProperties
        (fun e he => hps e (List.mem_cons_of_mem value he)) hdepth x hx

theorem legible_array {elements : List Expr}
    (h : ∀ e ∈ elements, Legible limits n e.tier (!e.bareIn) e.shape) (free : Bool) :
    Legible limits (n + 4) .primary free (shape (.array elements)) := by
  have hitems (depth : Nat) (hdepth : depth ≥ n + 4) :=
    readsItem_shapesAll hl h hdepth .element
  refine Legible.of_list rfl (by decide) hitems ?_ free
  exact fun depth hdepth tail more hends made =>
    goes_nodeOf hl (goes_elements hl (hitems depth hdepth) rfl hends)

theorem legible_object {properties : List Property}
    (h : ∀ e ∈ values properties, Legible limits n e.tier (!e.bareIn) e.shape) (free : Bool) :
    Legible limits (n + 4) .primary free (shape (.object properties)) := by
  have hitems (depth : Nat) (hdepth : depth ≥ n + 4) :=
    readsItem_shapesOfProperties hl h hdepth
  refine Legible.of_list rfl (by decide) hitems ?_ free
  exact fun depth hdepth tail more hends made =>
    goes_nodeOf hl (goes_delimited hl (hitems depth hdepth) rfl (by decide) (by decide) hends)

end Expr

/-! ## Calls -/

namespace Phrase

open Setting Shape

variable {limits : Limits} {n : Nat} {x : Phrase} {free : Bool}

/-- An argument is read as an item of the arguments. -/
theorem readsItem_argument {depth : Nat} {x : Shape}
    (h : (atDepth limits depth).ReadsItem (assignment .argument) () x) :
    (atDepth limits depth).ReadsItem
      (do
        let k ← peek
        if closers.contains k then return false
        else
          assignment .argument
          return true) true x := by
  refine ⟨h.opens, fun rest hrest made => ?_⟩
  have hne := (h.opens rest hrest.1).ahead_ne
  refine (goes_peek _ _ _).bind (.of_neg ?_ ((h.goes rest hrest made).bind (goes_pure _ _)))
  simp [closers, hne]

/-- A call goes on with a chain. -/
theorem Readable.call (hl : limits.Endless) (h : Readable limits n .primary free x)
    {arguments : List Shape}
    (harguments : ∀ depth ≥ n, ∀ a ∈ arguments,
      (atDepth limits depth).ReadsItem (assignment .argument) () a) (free' : Bool) :
    ReadableOn limits n .primary free' x (x.call arguments) := by
  have hitems {depth : Nat} (hdepth : depth ≥ n) (a : Shape) (ha : a ∈ arguments) :=
    readsItem_argument (harguments depth hdepth a ha)
  have hsource (tail : List Trivia) (more : Text) :
      Shape.sourceAll
        [(list .argList .lParen .rParen arguments tail).withField .arguments] ++ more =
        (list .argList .lParen .rParen arguments tail).source ++ more := by
    simp [sourceAll]
  have hread {tail : List Trivia} {more : Text} (hends : Ends tail more) :=
    reads_opening .operator .lParen (hitems (Nat.le_refl _)) rfl
      (Text.endsItem_closing .rParen (by decide) rfl hends).1
  refine h.link (Nat.le_refl n) ?_ ?_ free'
  · intro tail more hends
    rw [hsource, source_list_append]
    exact Mode.operator.solid_sign .lParen rfl none _ _
  · intro depth hdepth tail more hends made
    have hglimpse : Text.glimpse .operator
        ((list .argList .lParen .rParen arguments tail).source ++ more) =
        ⟨.lParen, Kind.lParen.text, false⟩ := by
      rw [source_list_append]
      exact (hread hends).glimpse
    rw [hsource]
    refine (goes_look _ _ _ _).bind ?_
    rw [hglimpse]
    refine .of_pos rfl (Goes.bind (goes_wrap hl ?_) (goes_pure _ _))
    have hlist : (atDepth limits depth).Goes Grammar.arguments
        ⟨(list .argList .lParen .rParen arguments tail).source ++ more, .operator,
          [(x gap).withField .function]⟩ ()
        ⟨more, .operator, [(list .argList .lParen .rParen arguments tail).withField .arguments,
          (x gap).withField .function]⟩ :=
      (goes_nodeOf hl (goes_delimited hl (hitems hdepth) rfl (by decide) (by decide) hends)).bind
        (goes_label _ _ _ _ _)
    exact hlist.bind (goes_pure _ _)

end Phrase

/-! ## Operators in front and behind -/

namespace Phrase

open Setting Shape

variable {limits : Limits} {n : Nat} {x : Phrase} {free : Bool}

/-- An operator is taken as the word or the sign that it is. -/
theorem goes_takeOperator (hl : limits.Endless) {depth : Nat} {op : Kind} {mode : Mode}
    {rest more : Text} (h : mode.Reads rest op.seenAs op.text gap more) (made : List Shape) :
    (atDepth limits depth).Goes (takeOperator op) ⟨rest, mode, made⟩ ()
      ⟨more, .operator, sign op (some .operator) gap :: made⟩ := by
  unfold Kind.seenAs at h
  by_cases hkey : op.isKeyword = true
  · rw [if_pos hkey] at h
    exact .of_pos hkey (goes_takeWord hl h op _)
  · rw [if_neg hkey] at h
    exact .of_neg hkey (goes_take hl h _)

/-- An update behind an operand ends its chain. -/
theorem Readable.update (hl : limits.Endless) (h : Readable limits n .primary free x)
    (op : UpdateOperator) (free' : Bool) :
    ReadableOn limits n .trailing free' x (x.update op.kind) := by
  obtain ⟨hsigns, hsign⟩ := Kind.update_facts op.isUpdate
  have hsource (tail : List Trivia) (more : Text) :
      Shape.sourceAll [sign op.kind (some .operator) tail] ++ more =
        (sign op.kind (some .operator) tail).source ++ more := by
    simp [sourceAll]
  have hothers (tail : List Trivia) (more : Text) (hends : Ends tail more) :
      Text.Solid (Shape.sourceAll [sign op.kind (some .operator) tail] ++ more) := by
    rw [hsource]
    exact Mode.operator.solid_sign op.kind hsign _ _ _
  refine ⟨Stands.readable ?_ (by decide) free', fun hx => hx.heads _ _ hothers⟩
  intro depth hdepth tail more hends _ mode made
  have hread := Mode.operator.reads_sign op.kind hsign hends (some .operator)
  rw [Phrase.update, source_heads_append, hsource]
  refine h.chains rfl depth hdepth gap _ (ends_gap (Mode.operator.solid_sign _ hsign _ _ _)) mode
    made _ (.last ?_)
  refine (goes_look_reads _ _ _ _ hread).bind ?_
  have hupdate : (atDepth limits depth).Goes
      (.wrap .argument do take (some .operator); return .updateExpr)
      ⟨(sign op.kind (some .operator) tail).source ++ more, .operator, x gap :: made⟩ ()
      ⟨more, .operator, x.update op.kind tail :: made⟩ :=
    goes_wrap hl ((goes_take hl hread (some .operator)).bind (goes_pure _ _))
  rcases hsigns with hk | hk
  · rw [hk] at hupdate ⊢
    exact .of_pos rfl (hupdate.bind (goes_pure _ _))
  · rw [hk] at hupdate ⊢
    exact .of_pos rfl (hupdate.bind (goes_pure _ _))

end Phrase

namespace Expr

open Phrase Setting Shape

omit [Alphabet] in
/-- An operator in front is seen as one, before its operand, and opens an expression. -/
theorem leadingOperator?_seenAs {k : Kind}
    (hk : (k.isUnaryOperator || k.isUpdateOperator) = true) :
    leadingOperator? ⟨k.seenAs, k.text, false⟩ = some k ∧ Mode.exprStart.hasOperator k = true ∧
      Mode.operator.hasOperator k = true ∧ expressionFirst.contains k.seenAs = true := by
  revert k
  decide +kernel

/-- An operator in front goes with the operand behind it. -/
theorem legible_leading {limits : Limits} {n : Nat} (hl : limits.Endless) (op : LeadingOperator)
    {argument : Expr} {f : Bool} (h : Legible limits n argument.tier f argument.shape)
    (free : Bool) : Legible limits (n + 3) .unary free (shape (.leading op argument)) := by
  obtain ⟨hseen, hbefore, hafter, hfirst⟩ := leadingOperator?_seenAs op.isLeading
  have hargument := h.bracket hl Precedence.unary.rank
  have hsolid {tail : List Trivia} {more : Text} (hends : Ends tail more) :=
    (hargument.opens tail more hends).solid
  have hsource (tail : List Trivia) (more : Text) :
      ((leading op argument).shape tail).source ++ more =
        (sign op.kind (some .operator) gap).source ++
        ((bracket (argument.looserThan Precedence.unary.rank) argument.shape
          tail).source ++ more) := by
    simp only [shape, source, sourceAll, slot, source_withField, List.append_assoc, List.nil_append]
  have hstands : Stands limits (n + 3) (leading op argument).shape := by
    intro depth hdepth tail more hends hlinks mode made
    obtain ⟨below, rfl⟩ : ∃ below, depth = below + 1 := ⟨depth - 1, by omega⟩
    have hread :=
      Mode.exprStart.reads_operator rfl hbefore (settled_of_solid (hsolid hends)) (some .operator)
    have hinside := goes_call .unary <|
      hargument.stands (Precedence.le_rank_fit (by decide)) below (by omega) tail more hends hlinks
        .operator [sign op.kind (some .operator) gap]
    rw [hsource]
    refine (goes_look_reads _ _ _ _ hread).bind ?_
    rw [hseen]
    exact goes_nodeOf hl ((goes_takeOperator hl hread _).bind (goes_callIn hinside))
  refine ⟨hstands.readable (by decide) free, fun tail more hends => ?_⟩
  rw [hsource]
  exact Text.opens_of_reads
    (Mode.operator.reads_operator rfl hafter (settled_of_solid (hsolid hends)) _)
    (Mode.operator.solid_operator hafter _ _) hfirst

end Expr

end ActionScript
