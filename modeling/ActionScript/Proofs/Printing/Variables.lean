import ActionScript.Proofs.Printing.Heads

/-!
# Variables and the head of a `for`

Variables stand in a statement of their own or in the first clause of a `for`, where `in` is no
operator.  There the value of a variable is in parentheses if it has a bare `in`, so it is free of
it either way.

* `Setting.goes_declarators`: **variables are read again**, up to what ends their statement or
  clause.
* `Setting.exists_goes_forHead`: **the first clause of a `for` is read again**, whatever it is.
* `Setting.goes_optional`: an expression that may be left out.
-/

set_option autoImplicit false

namespace ActionScript

open ActionScript.Parser ActionScript.Grammar Trivia

variable [Alphabet]

namespace Setting

variable {limits : Limits} {depth : Nat} {rest : Text} {r : Restrictions} {inHead : Bool}
  (hl : limits.Endless)
include hl

/-! ## Variables -/

/-- A variable is read again, and then the comma behind it if there is one. -/
theorem goes_declarator (d : Declarator) (hdepth : Expr.levelsOfOption d.value ≤ depth)
    (hin : r.noIn = true → inHead = true) (hsettled : rest.Settled)
    (hnext : rest.Follows Precedence.assignment.rank ∧ rest.Stops .assignment r)
    (hne : ∀ k ∈ [Kind.colon, .eq], rest.ahead ≠ k) {b : Bool} {c : Spot} {made : List Shape}
    (hcomma : (atDepth limits depth).Goes (eat .comma)
      ⟨rest, .operator, d.shape inHead :: made⟩ b c) (mode : Mode) :
    (atDepth limits depth).Goes
      (do
        nodeOf .variableDeclarator do
          name .name [.colon, .eq, .comma]
          typeAscription? .type
          when (← sees .eq) do
            take none
            callIn .value (.expression .assignment r)
        label .declarator
        eat .comma)
      ⟨(d.shape inHead).source ++ rest, mode, made⟩ b c := by
  obtain ⟨n, value⟩ := d
  cases value with
  | none =>
    simp only [Declarator.shape, Shape.source, Shape.sourceAll, Shape.source_withField,
      List.append_assoc, List.nil_append]
    refine Goes.bind (goes_nodeOf hl ?_) ((goes_label _ _ _ _ _).bind hcomma)
    refine (goes_name hl n (.inl rfl) hsettled _ _ _ _).bind ?_
    refine (goes_typeAscription?_none (hne _ (by decide)) _ _ _).bind ((goes_sees _ _ _ _).bind ?_)
    exact .of_neg (by simp [hne]) (goes_pure _ _)
  | some e =>
    have hlevels : e.levels ≤ depth := hdepth
    rw [Expr.levels] at hlevels
    have hvalue := Expr.legible_bracket hl e (Declarator.needs inHead e)
    have hends := ends_gap_of_settled hsettled
    have hopens := ends_gap (hvalue.opens gap rest hends).solid
    have heq := Mode.operator.reads_sign .eq rfl hopens none
    have hbehind := settled_of_solid (Mode.operator.solid_sign .eq rfl none gap
      ((Shape.bracket (Declarator.needs inHead e) e.shape gap).source ++ rest))
    have hrank : Precedence.assignment.rank ≤
        (if Declarator.needs inHead e then Precedence.primary else e.tier).rank := by
      split
      · decide
      · rename_i hneed
        simp only [Declarator.needs, Bool.or_eq_true, not_or, Expr.looserThan, decide_eq_true_eq]
          at hneed
        exact Nat.le_of_not_lt hneed.1
    have hfree : r.noIn = true → (Declarator.needs inHead e || !e.bareIn) = true := by
      intro hno
      cases hbare : e.bareIn <;> simp [Declarator.needs, hin hno, hbare]
    have hdeep : 4 * e.height + 2 + 2 ≤ depth := hlevels
    have hinside := hvalue.goes_expression hdeep .assignment r hrank hfree
      (fun _ => hrank) hends
      ⟨hnext.1.mono hrank, hnext.2⟩
    simp only [Declarator.shape, Shape.source, Shape.sourceAll, Shape.source_withField, Shape.slot,
      List.append_assoc, List.nil_append]
    refine Goes.bind (goes_nodeOf hl ?_) ((goes_label _ _ _ _ _).bind hcomma)
    refine (goes_name hl n (.inl rfl) hbehind _ _ _ _).bind ?_
    refine (goes_typeAscription?_none (by rw [heq.ahead]; decide) _ _ _).bind
      ((goes_sees _ _ _ _).bind (.of_pos (by rw [heq.ahead]; rfl) ?_))
    exact (goes_take hl heq none).bind (goes_callIn (hinside _ _))

omit hl in
/-- Variables begin with a name. -/
theorem solid_declarators (inHead : Bool) (d : Declarator) (ds : List Declarator) (rest : Text) :
    Text.Solid (Shape.sourceAll (Declarator.shapesAll inHead (d :: ds)) ++ rest) := by
  have hfirst (more : Text) : Text.Solid ((d.shape inHead).source ++ more) := by
    obtain ⟨n, value⟩ := d
    cases value <;> simpa [Declarator.shape, Shape.source, Shape.sourceAll] using
      Phrase.solid_ident n gap _
  cases ds with
  | nil => simpa [Declarator.shapesAll, Shape.separate, Shape.sourceAll] using hfirst rest
  | cons d' ds => simpa [Declarator.shapesAll, Shape.separate, Shape.sourceAll] using hfirst _

/-- **Variables are read again**, up to what ends their statement or clause. -/
theorem goes_declarators (hrest : rest.EndsContents) (hin : r.noIn = true → inHead = true)
    (hseq : r.noSequence = true) (d : Declarator) (ds : List Declarator)
    (hdepth : Declarator.levelsAll (d :: ds) ≤ depth) (mode : Mode) (made : List Shape) :
    (atDepth limits depth).Goes (declarators r)
      ⟨Shape.sourceAll (Declarator.shapesAll inHead (d :: ds)) ++ rest, mode, made⟩ ()
      ⟨rest, .operator, (Declarator.shapesAll inHead (d :: ds)).reverse ++ made⟩ := by
  refine goes_loop ?_
  induction ds generalizing d mode made with
  | nil =>
    rw [Declarator.levelsAll] at hdepth
    have hshapes : Declarator.shapesAll inHead [d] = [d.shape inHead] := rfl
    rw [hshapes, Shape.sourceAll, Shape.sourceAll, List.append_nil]
    exact .last <| goes_declarator hl d (by omega) hin hrest.settled (hrest.follows _ _ _)
      (fun k hk => hrest.ahead_ne k (List.mem_cons_of_mem _ hk))
      (goes_eat_none (hrest.ahead_ne .comma (by decide))) mode
  | cons d' ds ih =>
    rw [Declarator.levelsAll] at hdepth
    have hothers := ends_gap (solid_declarators inHead d' ds rest)
    have hcomma := Mode.operator.reads_sign .comma rfl hothers none
    have hsettled := settled_of_solid (Mode.operator.solid_sign .comma rfl none gap
      (Shape.sourceAll (Declarator.shapesAll inHead (d' :: ds)) ++ rest))
    have hlevels : Expr.levelsOfOption d.value ≤ depth := Nat.le_trans (Nat.le_max_left _ _) hdepth
    have heat : (atDepth limits depth).Goes (eat .comma)
        ⟨(Shape.sign .comma none gap).source ++
          (Shape.sourceAll (Declarator.shapesAll inHead (d' :: ds)) ++ rest), .operator,
          d.shape inHead :: made⟩ true
        ⟨Shape.sourceAll (Declarator.shapesAll inHead (d' :: ds)) ++ rest, .operator,
          Shape.sign .comma none gap :: d.shape inHead :: made⟩ := goes_eat hl hcomma
    have hround := goes_declarator hl d hlevels hin hsettled
      (Text.follows_of_comma hcomma.ahead _ _ hseq) (by rw [hcomma.ahead]; decide) heat mode
    have hshapes : Declarator.shapesAll inHead (d :: d' :: ds) =
      d.shape inHead :: Shape.sign .comma none gap :: Declarator.shapesAll inHead (d' :: ds) := rfl
    have hrounds :=
      ih d' (by omega) .operator (Shape.sign .comma none gap :: d.shape inHead :: made)
    rw [hshapes, Shape.sourceAll, Shape.sourceAll, List.append_assoc, List.append_assoc]
    refine .more hround ?_
    simpa using hrounds

end Setting

/-! ## The head of a `for` -/

/-- The first token of an expression is on the same line, and read as it is printed. -/
theorem Expr.exists_glimpse_bracket (e : Expr) (need : Bool) {rest : Text} (hrest : rest.Settled) :
    ∃ kind t, t.IsPlainAs kind ∧
      ((Shape.bracket need e.shape gap).source ++ rest).glimpse .operator = ⟨kind, t, false⟩ := by
  have hplain : Text.ArePlain (parenthesize need e.tokens) :=
    Text.arePlain_parenthesize.2 e.arePlain_tokens
  rw [Shape.source_bracket, Shape.flatten_gap]
  cases htokens : parenthesize need e.tokens with
  | nil => exact absurd (parenthesize_eq_nil.1 htokens).2 e.tokens_ne_nil
  | cons t ts =>
    rw [htokens] at hplain
    obtain ⟨⟨kind, ht⟩, hts⟩ := Text.arePlain_cons.1 hplain
    exact ⟨kind, t, ht, (ht.reads_spaced hts hrest).glimpse⟩

/-- No token of an expression is the keyword of a declaration. -/
theorem Text.IsPlainAs.isWord_eq_false {t : Text} {kind : Kind} (h : t.IsPlainAs kind)
    {word : String} (hword : word = "var" ∨ word = "const") (b : Bool) :
    Glimpse.isWord ⟨kind, t, b⟩ word = false := by
  have hkeyword : ∀ w ∈ ["var", "const"], ∃ k ∈ declaringWords, Kind.ofWord? w.toList = some k := by
    decide +kernel
  refine Bool.eq_false_iff.2 fun his => ?_
  obtain ⟨hname, htext⟩ : kind = .name ∧ t = word.toList := by simpa [Glimpse.isWord] using his
  obtain ⟨k, hk, hof⟩ := hkeyword word (by simpa using hword)
  rw [← htext] at hof
  exact (h.idle hname).keyword k hk hof

namespace Setting

variable {limits : Limits} {depth : Nat} {rest : Text} (hl : limits.Endless)
include hl

/-- **The first clause of a `for` is read again**, whatever it is, and put into its slot. -/
theorem exists_goes_forHead (first : ForFirst) (hdepth : first.levels ≤ depth)
    (hrest : rest.Settled) (hsemicolon : rest.ahead = .semicolon) (mode : Mode)
    (made : List Shape) : ∃ headed made',
      (atDepth limits depth).Goes forHead ⟨Shape.sourceAll first.shapes ++ rest, mode, made⟩ headed
        ⟨rest, .operator, made'⟩ ∧
      (atDepth limits depth).Goes (when headed (label .initializer)) ⟨rest, .operator, made'⟩ ()
        ⟨rest, .operator, first.shapes.reverse ++ made⟩ := by
  have hends : rest.EndsContents := ⟨hrest, .inl hsemicolon⟩
  cases first with
  | nothing =>
    have hno (word : String) : (rest.glimpse .operator).isWord word = false := by
      rw [Text.ahead] at hsemicolon
      simp [Glimpse.isWord, hsemicolon]
    refine ⟨false, made, ?_, goes_pure _ _⟩
    rw [ForFirst.shapes, Shape.sourceAll, List.nil_append]
    refine (goes_look _ _ _ _).bind (.of_neg ?_ (.of_pos ?_ (goes_pure _ _)))
    · simp [hno]
    · simpa [Text.ahead] using hsemicolon
  | expression e =>
    have hlevels : 4 * e.height + 2 + 2 ≤ depth := hdepth
    have hlegible := Expr.legible_bracket hl e e.bareIn
    have hopens := hlegible.opens gap rest (ends_gap_of_settled hrest)
    obtain ⟨kind, t, ht, hglimpse⟩ := e.exists_glimpse_bracket e.bareIn hrest
    have hcall := hlegible.goes_expression hlevels .comma { noIn := true } (Nat.zero_le _)
      (by simp) (by simp) (ends_gap_of_settled hrest) (hends.follows _ _ _) .operator made
    refine ⟨true, _, ?_, goes_label _ _ _ _ _⟩
    simp only [ForFirst.shapes, Shape.sourceAll, Shape.slot, Shape.source_withField,
      List.append_nil]
    refine (goes_look _ _ _ _).bind (.of_neg ?_ (.of_neg ?_ (hcall.bind (goes_pure _ _))))
    · rw [hglimpse]
      simp [ht.isWord_eq_false]
    · simpa [Text.ahead] using hopens.ahead_ne .semicolon (by decide)
  | declaration d ds =>
    have hlevels : Declarator.levelsAll (d :: ds) ≤ depth := hdepth
    have hread := Mode.operator.reads_keyword (k := .varKw) rfl (by decide) (.inl rfl)
      (settled_of_solid (solid_declarators true d ds rest))
    have hvariables := goes_declarators hl (r := { noIn := true, noSequence := true }) hends
      (fun _ => rfl) rfl d ds hlevels .operator [Shape.word .varKw [] gap]
    have hnode : (atDepth limits depth).Goes variableHead
        ⟨(Shape.word .varKw [] gap).source ++
          (Shape.sourceAll (Declarator.shapesAll true (d :: ds)) ++ rest), .operator, made⟩ ()
        ⟨rest, .operator, .node .variableDecl none
          (Shape.word .varKw [] gap :: Declarator.shapesAll true (d :: ds)) :: made⟩ := by
      have hconst : Glimpse.isWord ⟨.name, Kind.varKw.text, [].any breaksLine⟩ "const" = false :=
        rfl
      refine goes_node hl ((goes_seesWord _ _ _ _).bind ?_)
      rw [hread.glimpse, hconst]
      refine (goes_takeWord hl hread _ _).bind (Goes.bind (b := ()) ?_ (goes_pure _ _))
      rw [List.reverse_cons]
      exact hvariables
    refine ⟨true, .node .variableDecl none
      (Shape.word .varKw [] gap :: Declarator.shapesAll true (d :: ds)) :: made, ?_,
      goes_label _ _ _ _ _⟩
    simp only [ForFirst.shapes, Shape.sourceAll, Shape.source, List.append_assoc, List.append_nil]
    exact (goes_look_behind _ _ _ _ hread).bind (.of_pos rfl (hnode.bind (goes_pure _ _)))

/-- **An expression that may be left out is read again**, up to the sign that closes its clause. -/
theorem goes_optional {α : Type} {e : Option Expr}
    (hdepth : Expr.levelsOfOption e ≤ depth) {k : Kind}
    (hk : k ∈ [Kind.semicolon, .rParen]) (hrest : rest.Settled) (hahead : rest.ahead = k)
    {field : Field} {p : Parser α} {a : α} {made : List Shape} {d : Spot}
    (h : (atDepth limits depth).Goes p
      ⟨rest, .operator, (Shape.optional field e).reverse ++ made⟩ a d) (mode : Mode) :
    (atDepth limits depth).Goes
      (do
        when (!(← sees k)) (expression field)
        p)
      ⟨Shape.sourceAll (Shape.optional field e) ++ rest, mode, made⟩ a d := by
  have hfacts : ∀ k ∈ [Kind.semicolon, .rParen], k ∈ closingKinds ∧
      k ∈ [Kind.comma, .eof, .rParen, .rBrack, .rCurly, .semicolon] := by
    decide
  obtain ⟨hclosing, hmem⟩ := hfacts k hk
  cases e with
  | none =>
    rw [Shape.optional, Shape.sourceAll, List.nil_append]
    refine (goes_sees _ _ _ _).bind ?_
    rw [hahead, beq_self_eq_true]
    exact (goes_pure _ _).bind h
  | some e =>
    have hlevels : 4 * e.height + 4 ≤ depth := hdepth
    have hlegible := Expr.legible hl e
    have hdeep : 4 * e.height + 2 ≤ depth := by omega
    have hends := ends_gap_of_settled hrest
    have hne := (hlegible.opens gap rest hends).ahead_ne k hmem
    have hinside := hlegible.goes_closed hdeep hends (by rwa [hahead]) .operator made
    rw [Shape.optional, Shape.sourceAll, Shape.sourceAll, Shape.source_withField, List.append_nil]
    refine (goes_sees _ _ _ _).bind ?_
    rw [beq_false_of_ne hne]
    exact (goes_callIn hinside).bind h

/-- In front of an expression that may be left out nothing is trivia. -/
theorem settled_optional (field : Field) (e : Option Expr) (hrest : rest.Settled) :
    Text.Settled (Shape.sourceAll (Shape.optional field e) ++ rest) := by
  cases e with
  | none => exact hrest
  | some e =>
    rw [Shape.optional, Shape.sourceAll, Shape.sourceAll, Shape.source_withField, List.append_nil]
    exact settled_of_solid ((Expr.legible hl e).opens gap rest (ends_gap_of_settled hrest)).solid

theorem settled_forFirst (first : ForFirst) (hrest : rest.Settled) :
    Text.Settled (Shape.sourceAll first.shapes ++ rest) := by
  cases first with
  | nothing => exact hrest
  | expression e =>
    have hopens := (Expr.legible_bracket hl e e.bareIn).opens gap rest (ends_gap_of_settled hrest)
    rw [ForFirst.shapes, Shape.sourceAll, Shape.sourceAll, Shape.slot, Shape.source_withField,
      List.append_nil]
    exact settled_of_solid hopens.solid
  | declaration d ds =>
    simp only [ForFirst.shapes, Shape.sourceAll, Shape.source, List.append_assoc, List.append_nil]
    exact Text.settled_keyword (by decide) (.inl rfl) gap _

end Setting

end ActionScript
