import ActionScript.Proofs.Printing.Lookahead

/-!
# Where statements begin and end

A statement is ended by a semicolon or by a line break.  The line break stands in front of the next
token, so a statement may begin behind one: then a name comes first, as a parenthesis would go on
with the statement before.

* `Text.OnNewLine`, `Text.EndsStatement`: where a statement ends.
* `Setting.goes_ending`: **its end is read as such.**
* `Expr.readable_led`: **an expression that begins with a name is read again on a new line.**
-/

set_option autoImplicit false

namespace ActionScript

open ActionScript.Parser ActionScript.Grammar Trivia

/-! ## Ends of statements -/

namespace Text

/-- A line breaks here, and no expression goes on behind it. -/
structure OnNewLine [Alphabet] (cs : Text) : Prop where
  settled : cs.Settled
  startsLine : (cs.glimpse .operator).startsLine = true
  kind : cs.ahead ∈ [Kind.name, .lCurly, .rCurly, .eof]
  operator : ∀ r, infixOperator? r (cs.glimpse .operator) = none

/-- Behind the last token of a statement stands a space, or nothing at the end of the text. -/
def Behind (tail : List Trivia) (more : Text) : Prop :=
  (tail = gap ∧ more.Settled) ∨ (tail = [] ∧ more = [])

variable {cs more : Text} {tail : List Trivia}

theorem OnNewLine.follows [Alphabet] (h : cs.OnNewLine) (n : Nat) (min : Precedence)
    (r : Restrictions) :
    cs.Follows n ∧ cs.Stops min r := by
  have hlinks : ∀ k ∈ [Kind.name, .lCurly, .rCurly, .eof], k ∉ linkKinds := by decide
  refine ⟨⟨hlinks _ h.kind, fun op p hop => ?_⟩, fun op p hop => ?_⟩
  · rw [h.operator] at hop
    cases hop
  · rw [h.operator] at hop
    cases hop

theorem OnNewLine.ahead_ne [Alphabet] (h : cs.OnNewLine) :
    ∀ k ∈ [Kind.semicolon, .comma, .colon, .eq], cs.ahead ≠ k := by
  have hkinds : ∀ k ∈ [Kind.name, .lCurly, .rCurly, .eof],
      ∀ k' ∈ [Kind.semicolon, .comma, .colon, .eq], k ≠ k' := by
    decide
  exact hkinds _ h.kind

end Text

/-! ## Semicolons and braces -/

namespace Code

theorem lexeme_closing [Alphabet] {mode : Mode}
    (hcode : mode = .operator ∨ mode = .exprStart) {k : Kind}
    (hk : k ∈ [Kind.semicolon, .rCurly]) (after : Text) :
    lexeme mode (k.text ++ after) = ⟨k, k.text, after, none⟩ := by
  simp only [List.mem_cons, List.not_mem_nil, or_false] at hk
  rcases hcode with rfl | rfl <;> rcases hk with rfl | rfl <;> rfl

end Code

/-- What stands behind the last token of a statement is read as its trivia and no further. -/
theorem Text.Behind.trailingRun {tail : List Trivia} {more : Text} (h : Text.Behind tail more) :
    trailingRun (flatten tail ++ more) = ⟨tail, more, none⟩ := by
  rcases h with ⟨rfl, hmore⟩ | ⟨rfl, rfl⟩
  · exact (ends_gap_of_settled hmore).trailingRun
  · rfl

/-- **Semicolons and closing braces are read again**, at the end of the text and on a new line
too. -/
theorem Mode.reads_closing [Alphabet] {mode : Mode}
    (hmode : mode = .operator ∨ mode = .exprStart) {k : Kind}
    (hk : k ∈ [Kind.semicolon, .rCurly]) {lead tail : List Trivia} (hlead : Leads lead)
    {more : Text} (h : Text.Behind tail more) :
    mode.ReadsBehind lead ((Shape.word k lead tail).source ++ more) k k.text tail more := by
  have hcode : mode.isCode = true := by rcases hmode with rfl | rfl <;> rfl
  have hkind : k ≠ .eof := by
    rintro rfl
    exact absurd hk (by decide)
  have hsolid : Text.Solid (k.text ++ (flatten tail ++ more)) := by
    simp only [List.mem_cons, List.not_mem_nil, or_false] at hk
    rcases hk with rfl | rfl <;> exact solid_cons (by decide) (by decide) (by decide) _
  rw [Shape.source_word, List.append_assoc, List.append_assoc]
  exact Mode.ReadsBehind.of_leads hlead
    (reads_of_lexeme hcode hkind hsolid (Code.lexeme_closing hmode hk _) h.trailingRun) hcode hsolid

/-- What stands behind a statement: a new line, if it is ended by a line break. -/
def Text.Closes [Alphabet] (endsLine : Bool) (tail : List Trivia) (more : Text) : Prop :=
  if endsLine then more.OnNewLine else Text.Behind tail more

/-- What stands behind what a statement holds: its semicolon, or a new line. -/
structure Text.EndsContents [Alphabet] (cs : Text) : Prop where
  settled : cs.Settled
  ending : cs.ahead = .semicolon ∨ cs.OnNewLine

namespace Text.EndsContents

variable [Alphabet] {cs : Text} (h : cs.EndsContents)
include h

theorem follows (n : Nat) (min : Precedence) (r : Restrictions) :
    cs.Follows n ∧ cs.Stops min r := by
  rcases h.ending with hsemicolon | hline
  · exact follows_of_closing cs (by rw [hsemicolon]; decide) n min r
  · exact hline.follows n min r

theorem words : cs.EndsWords := by
  rcases h.ending with hsemicolon | hline
  · intro hname
    rw [show (cs.glimpse .operator).kind = .semicolon from hsemicolon] at hname
    cases hname
  · exact fun _ => hline.startsLine

theorem ahead_ne : ∀ k ∈ [Kind.comma, .colon, .eq], cs.ahead ≠ k := by
  rcases h.ending with hsemicolon | hline
  · rw [hsemicolon]
    decide
  · exact fun k hk => hline.ahead_ne k (List.mem_cons_of_mem _ hk)

end Text.EndsContents

theorem Ending.endsContents [Alphabet] (ending : Ending) {tail : List Trivia} {more : Text}
    (h : Text.Closes (ending = .lineBreak) tail more) :
    Text.EndsContents (Shape.sourceAll (ending.shapes tail) ++ more) := by
  cases ending with
  | semicolon =>
    have hread := Mode.reads_closing (.inl rfl) (k := .semicolon) (by decide) (.inl rfl) h
    have hsource : Shape.sourceAll (shapes .semicolon tail) ++ more =
        (Shape.word .semicolon [] tail).source ++ more := by
      rw [shapes, Shape.sourceAll, Shape.sourceAll, List.append_nil]
      rfl
    rw [hsource]
    refine ⟨settled_of_solid ?_, .inl hread.ahead⟩
    exact solid_cons (by decide) (by decide) (by decide) _
  | lineBreak =>
    have hline : more.OnNewLine := h
    exact ⟨hline.settled, .inr hline⟩

/-- The semicolon of a statement is taken, if it has one. -/
theorem Setting.goes_eatEnding [Alphabet] {E : Setting} (hl : E.limits.Endless) (ending : Ending)
    {tail : List Trivia} {more : Text} (h : Text.Closes (ending = .lineBreak) tail more)
    (mode : Mode) (made : List Shape) :
    E.Goes (eat .semicolon) ⟨Shape.sourceAll (ending.shapes tail) ++ more, mode, made⟩
      (ending = .semicolon) ⟨more, .operator, (ending.shapes tail).reverse ++ made⟩ := by
  cases ending with
  | semicolon =>
    have hread := Mode.reads_closing (.inl rfl) (k := .semicolon) (by decide) (.inl rfl) h
    rw [Ending.shapes, Shape.sourceAll, Shape.sourceAll, List.append_nil]
    exact goes_eat hl hread
  | lineBreak =>
    have hline : more.OnNewLine := h
    exact goes_eat_none (hline.ahead_ne _ (by decide))

/-- **The end of a statement is read as such.** -/
theorem Setting.goes_ending [Alphabet] {E : Setting} (hl : E.limits.Endless) (ending : Ending)
    {tail : List Trivia} {more : Text} (h : Text.Closes (ending = .lineBreak) tail more)
    (mode : Mode) (made : List Shape) :
    E.Goes semicolon ⟨Shape.sourceAll (ending.shapes tail) ++ more, mode, made⟩ ()
      ⟨more, .operator, (ending.shapes tail).reverse ++ made⟩ := by
  refine (goes_eatEnding hl ending h mode made).bind ?_
  cases ending with
  | semicolon => exact goes_pure _ _
  | lineBreak =>
    have hline : more.OnNewLine := h
    refine .of_pos rfl ((goes_look _ _ _ _).bind (.of_neg ?_ (goes_pure _ _)))
    simp [hline.startsLine]

/-! ## Expressions on a new line -/

namespace Shape

@[simp] theorem led_withField (f : Field) (s : Shape) (lead : List Trivia) :
    (s.withField f).led lead = (s.led lead).withField f := by
  cases s <;> simp [withField, led]

mutual

theorem led_nil {s : Shape} (h : s.isBare = true) : s.led [] = s := by
  cases s with
  | token kind field leading text trailing =>
    obtain rfl : leading = [] := by simpa [isBare] using h
    rfl
  | node kind field children => rw [led, ledFirst_nil h]

theorem ledFirst_nil {ss : List Shape} (h : beginsBare ss = true) : ledFirst [] ss = ss := by
  match ss with
  | [] => rfl
  | s :: ss => rw [ledFirst, led_nil h]

end

end Shape

namespace Phrase

/-- A phrase with something in front of its first token. -/
def led (lead : List Trivia) (x : Phrase) : Phrase := fun tail => (x tail).led lead

theorem led_heads (x : Phrase) (lead : List Trivia) (node : Kind) (field : Field)
    (others : List Trivia → List Shape) :
    (x.heads node field others).led lead = (x.led lead).heads node field others := by
  funext tail
  simp [led, heads, Shape.led, Shape.ledFirst]

end Phrase

namespace Expr

open Phrase Setting Shape

variable {limits : Limits} {lead : List Trivia}

variable [Alphabet]

/-- What begins with a name stands in its slot without parentheses. -/
theorem readable_led_bracket {n floor : Nat} {e : Expr}
    (ih : e.firstName?.isSome = true → Readable limits n e.tier false (e.shape.led lead))
    (hname : (if e.looserThan floor then none else e.firstName?).isSome = true) :
    Readable limits n (e.tier.fit floor) false
      ((bracket (e.looserThan floor) e.shape).led lead) := by
  split at hname
  · cases hname
  · rename_i htight
    have htier : e.tier.fit floor = e.tier := if_neg (by simpa [looserThan] using htight)
    have hbracket : bracket (e.looserThan floor) e.shape = e.shape := if_neg htight
    rw [htier, hbracket]
    exact ih hname

mutual

/-- **An expression that begins with a name is read again** on a new line. -/
theorem readable_led (hl : limits.Endless) (hlead : Leads lead) (e : Expr)
    (hname : e.firstName?.isSome = true) :
    Readable limits (4 * e.height) e.tier false (e.shape.led lead) := by
  cases e with
  | reference target => exact readable_ledReference hl hlead target hname
  | number _ | array _ | object _ | leading _ _ => cases hname
  | call function arguments =>
    rw [firstName?] at hname
    have hfunction := readable_led_bracket (function.readable_led hl hlead) hname
    rw [Precedence.fit_primary] at hfunction
    change Readable _ _ _ _ (((bracket _ function.shape).call _).led lead)
    rw [Phrase.call, led_heads]
    refine ((hfunction.mono ?_).call hl (fun depth hdepth => ?_) false).toReadable
    · rw [height]
      omega
    · rw [height] at hdepth
      exact readsItem_shapesAll hl (legibleAll hl arguments) (by omega) .argument
  | trailing argument op =>
    rw [firstName?] at hname
    have hargument := readable_led_bracket (argument.readable_led hl hlead) hname
    rw [Precedence.fit_primary] at hargument
    change Readable _ _ _ _ (((bracket _ argument.shape).update op.kind).led lead)
    rw [Phrase.update, led_heads]
    refine ((hargument.mono ?_).update hl op false).toReadable
    rw [height]
    omega
  | binary op left right =>
    rw [firstName?] at hname
    have hleft := readable_led_bracket (left.readable_led hl hlead) hname
    have hright := (legible hl right).mono (n := 4 * max left.height right.height) (by omega)
    change Readable _ _ _ _ (((bracket _ left.shape).binary op right).led lead)
    rw [Phrase.binary, led_heads, height, Nat.mul_succ]
    exact (hleft.binary hl (Precedence.le_rank_fit op.tier.leftFloor_le_primary) (by omega) hright
      (absurd · Bool.false_ne_true)).toReadable.mono (Nat.le_succ _)
  | conditional condition consequence alternative =>
    rw [firstName?] at hname
    have hcondition := readable_led_bracket (condition.readable_led hl hlead) hname
    have hmono {e : Expr} (hle : e.height ≤ max condition.height
        (max consequence.height alternative.height)) (he : e.IsLegible limits (4 * e.height)) :=
      he.mono (Nat.mul_le_mul_left 4 hle)
    change Readable _ _ _ _
      (((bracket _ condition.shape).conditional consequence alternative).led lead)
    rw [Phrase.conditional, led_heads, height, Nat.mul_succ]
    exact (hcondition.conditional hl (Precedence.le_rank_fit (Precedence.leftFloor_le_primary _))
      (by omega) (hmono (by omega) (legible hl consequence))
      (hmono (by omega) (legible hl alternative)) (absurd · Bool.false_ne_true)).toReadable.mono
      (Nat.le_succ _)
  | assign op target value =>
    have htarget := readable_ledReference hl hlead target hname
    have hvalue := (legible hl value).mono
      (n := 4 * max (heightOfReference target) value.height) (by omega)
    change Readable _ _ _ _ (((shapeOfReference target).assign op value).led lead)
    rw [Phrase.assign, led_heads, height, Nat.mul_succ]
    exact (htarget.assign hl (by omega) hvalue (absurd · Bool.false_ne_true)).toReadable.mono
      (Nat.le_succ _)
  | sequence left right =>
    have hleft := left.readable_led hl hlead hname
    have hright := (legible hl right).mono (n := 4 * max left.height right.height) (by omega)
    change Readable _ _ _ _ ((left.shape.sequence right).led lead)
    rw [Phrase.sequence, led_heads, height, Nat.mul_succ]
    exact (hleft.sequence hl (by omega) hright (absurd · Bool.false_ne_true)).toReadable.mono
      (Nat.le_succ _)

theorem readable_ledReference (hl : limits.Endless) (hlead : Leads lead) (r : Reference)
    (hname : (firstNameOfReference? r).isSome = true) :
    Readable limits (4 * heightOfReference r) .primary false ((shapeOfReference r).led lead) := by
  cases r with
  | name n => exact readable_name hl n hlead _ _
  | member base property =>
    rw [firstNameOfReference?] at hname
    have hbase := readable_led_bracket (base.readable_led hl hlead) hname
    rw [Precedence.fit_primary] at hbase
    change Readable _ _ _ _ (((bracket _ base.shape).member property).led lead)
    rw [Phrase.member, led_heads]
    refine ((hbase.mono ?_).member hl property false).toReadable
    rw [heightOfReference]
    omega
  | subscript base index =>
    rw [firstNameOfReference?] at hname
    have hbase := readable_led_bracket (base.readable_led hl hlead) hname
    rw [Precedence.fit_primary] at hbase
    change Readable _ _ _ _ (((bracket _ base.shape).subscript index.shape).led lead)
    rw [Phrase.subscript, led_heads]
    refine ((hbase.mono ?_).subscript hl (legible hl index) ?_ false).toReadable
    all_goals
      rw [heightOfReference]
      omega

end

/-- In parentheses or not, an expression is legible. -/
theorem legible_bracket (hl : limits.Endless) (e : Expr) (need : Bool) :
    Legible limits (4 * e.height + 2) (if need then .primary else e.tier) (need || !e.bareIn)
      (bracket need e.shape) := by
  cases need with
  | false => exact (legible hl e).mono (Nat.le_add_right _ 2)
  | true => exact (legible hl e).parens hl (.inl rfl) _

/-- **What a statement holds is read again**, up to its end. -/
theorem goes_contents (hl : limits.Endless) (e : Expr) (hlead : Leads lead)
    (hname : lead ≠ [] → e.firstName?.isSome = true) {depth : Nat} (hdepth : e.levels ≤ depth)
    {rest : Text} (hrest : rest.EndsContents) (mode : Mode) (made : List Shape) :
    (atDepth limits depth).Goes (Grammar.expression .expression)
      ⟨((bracket (!e.opensPlainly) e.shape gap).led lead).source ++ rest, mode, made⟩ ()
      ⟨rest, .operator, ((bracket (!e.opensPlainly) e.shape gap).led lead).withField .expression ::
        made⟩ := by
  have hends := ends_gap_of_settled hrest.settled
  obtain ⟨tier, free, hreadable⟩ : ∃ tier free, Readable limits (4 * e.height + 2) tier free
      ((bracket (!e.opensPlainly) e.shape).led lead) := by
    rcases hlead with rfl | rfl
    · have hbare := isBare_slot .value (!e.opensPlainly) e.isBare_shape
      simp only [slot, isBare_withField] at hbare
      have hled : (bracket (!e.opensPlainly) e.shape).led [] = bracket (!e.opensPlainly) e.shape :=
        funext fun tail => led_nil (hbare tail)
      rw [hled]
      exact ⟨_, _, (legible_bracket hl e _).toReadable⟩
    · have hplain : bracket (!e.opensPlainly) e.shape = e.shape := by
        simp [bracket, opensPlainly, hname (List.cons_ne_nil _ _)]
      rw [hplain]
      exact ⟨_, _, (e.readable_led hl (.inr rfl) (hname (List.cons_ne_nil _ _))).mono
        (Nat.le_add_right _ 2)⟩
  exact goes_callIn <| hreadable.goes_whole hdepth hends (hrest.follows _ _ _) mode made

end Expr

end ActionScript
