import ActionScript.Proofs.Precedence
import ActionScript.Proofs.Printing.Spot

/-!
# Phrases

A phrase is read again as a whole, whatever stands behind it that does not go on with it.  What goes
on with it depends on its tier: an operand is followed by accesses and calls, and everything is
followed by operators between operands.  So that nothing has to be said of loops that are left
halfway, a phrase is handed the rounds that are still to come.

* `Text.Follows`, `Text.Stops`: what may stand behind a phrase, and what ends an expression.
* `Phrase.Chains`, `Phrase.Stands`, `Phrase.Spans`: a phrase is read as the beginning of a chain, as
  an operand, as the beginning of an expression.
* `Phrase.Readable`, `Phrase.Legible`: as all of these that its tier admits, and opening an
  expression.
* `Phrase.Legible.bracket`: **in parentheses where need be, a phrase fits into its slot.**
-/

set_option autoImplicit false

namespace ActionScript

open ActionScript.Parser ActionScript.Grammar

/-! ## What comes behind a phrase -/

/-- The kinds of tokens with which a chain goes on. -/
def linkKinds : List Kind := [.dot, .dot2, .colon2, .dotLt, .lBrack, .lParen, .plus2, .minus2]

namespace Text

variable [Alphabet]

/-- An expression opens here. -/
structure Opens (cs : Text) : Prop where
  solid : cs.Solid
  first : expressionFirst.contains cs.ahead = true

/-- A phrase whose tier has the rank ends here: what comes next is no part of it. -/
structure Follows (cs : Text) (rank : Nat) : Prop where
  links : cs.ahead ∉ linkKinds
  operators : ∀ op p, infixOperator? {} (cs.glimpse .operator) = some (op, p) → p.leftFloor ≤ rank

/-- An expression ends here: no operator follows that it takes. -/
def Stops (cs : Text) (min : Precedence) (r : Restrictions) : Prop :=
  ∀ op p, infixOperator? r (cs.glimpse .operator) = some (op, p) → p.rank < min.rank

variable {cs : Text} {m n : Nat}

theorem opens_of_reads {kind : Kind} {text more : Text} {tail : List Trivia}
    (h : Mode.operator.Reads cs kind text tail more) (hsolid : cs.Solid)
    (hkind : expressionFirst.contains kind = true) : cs.Opens :=
  ⟨hsolid, h.ahead.symm ▸ hkind⟩

theorem Follows.mono (h : cs.Follows m) (hle : m ≤ n) : cs.Follows n :=
  ⟨h.links, fun op p hop => Nat.le_trans (h.operators op p hop) hle⟩

end Text

/-- Restrictions only take operators away. -/
theorem infixOperator?_unrestricted {r : Restrictions} {g : Glimpse} {op : Kind} {p : Precedence}
    (h : infixOperator? r g = some (op, p)) : infixOperator? {} g = some (op, p) := by
  unfold infixOperator? at h ⊢
  split at h
  · split at h
    · split at h
      · cases h
      · exact h
    all_goals exact h
  · split at h
    · cases h
    · exact h
  · exact h

/-- An operator that leaves what stands in front of it to a tier is not taken behind that tier. -/
theorem Precedence.rank_lt_rightFloor {p q : Precedence} (h : q.leftFloor ≤ p.rank) :
    q.rank < p.rightFloor := by
  revert h
  cases p <;> cases q <;> decide

theorem Precedence.leftFloor_le_rightFloor {p q : Precedence} (h : q.leftFloor ≤ p.rank) :
    q.leftFloor ≤ p.rightFloor := by
  revert h
  cases p <;> cases q <;> decide

/-- The right operand of a phrase ends where the phrase does. -/
theorem Text.Follows.right [Alphabet] {cs : Text} {p min : Precedence} (h : cs.Follows p.rank)
    (hmin : min.rank = p.rightFloor) (r : Restrictions) :
    cs.Follows p.rightFloor ∧ cs.Stops min r := by
  refine ⟨⟨h.links, fun op q hop => ?_⟩, fun op q hop => ?_⟩
  · exact Precedence.leftFloor_le_rightFloor (h.operators op q hop)
  · rw [hmin]
    exact Precedence.rank_lt_rightFloor (h.operators op q (infixOperator?_unrestricted hop))

/-- The kinds of signs that close what an expression stands in. -/
def closingKinds : List Kind := [.rParen, .rBrack, .rCurly, .colon, .semicolon]

/-- A sign that closes something ends every phrase and every expression. -/
theorem Text.follows_of_closing [Alphabet] (cs : Text) (h : cs.ahead ∈ closingKinds) (n : Nat)
    (min : Precedence) (r : Restrictions) : cs.Follows n ∧ cs.Stops min r := by
  have hlinks : ∀ k ∈ closingKinds, k ∉ linkKinds := by decide
  have hnone (r : Restrictions) : infixOperator? r (cs.glimpse .operator) = none := by
    rw [Text.ahead] at h
    unfold infixOperator?
    generalize Text.glimpse .operator cs = g at h ⊢
    obtain ⟨kind, text, startsLine⟩ := g
    simp only [closingKinds, List.mem_cons, List.not_mem_nil, or_false] at h
    rcases h with rfl | rfl | rfl | rfl | rfl <;> rfl
  refine ⟨⟨hlinks _ h, fun op p hop => ?_⟩, fun op p hop => ?_⟩
  · rw [hnone] at hop
    cases hop
  · rw [hnone] at hop
    cases hop

/-- A comma ends every phrase, and an expression that takes none. -/
theorem Text.follows_of_comma [Alphabet] {cs : Text} (h : cs.ahead = .comma) (n : Nat)
    (min : Precedence)
    {r : Restrictions} (hr : r.noSequence = true) : cs.Follows n ∧ cs.Stops min r := by
  rw [Text.ahead] at h
  have hcomma : ∀ op p, infixOperator? {} (cs.glimpse .operator) = some (op, p) → p = .comma := by
    intro op p hop
    rw [infixOperator?, h] at hop
    cases hop
    rfl
  refine ⟨⟨?_, fun op p hop => ?_⟩, fun op p hop => ?_⟩
  · rw [Text.ahead, h]
    decide
  · rw [hcomma op p hop]
    exact Nat.zero_le n
  · rw [infixOperator?, h] at hop
    simp [hr] at hop

namespace Setting

variable [Alphabet] {E : Setting}

/-- A chain ends where nothing follows that goes on with it. -/
theorem goes_link_stop {rest : Text} (h : rest.ahead ∉ linkKinds) (calls : Bool) (mode : Mode)
    (made : List Shape) :
    E.Goes (link calls) ⟨rest, mode, made⟩ false ⟨rest, .operator, made⟩ := by
  refine (goes_look _ _ _ _).bind ?_
  rw [Text.ahead] at h
  generalize Text.glimpse .operator rest = g at h ⊢
  split
  all_goals first | exact goes_pure _ _ | skip
  all_goals
    rename_i hkind
    rw [hkind] at h
    exact absurd (by decide) h

theorem goes_operatorStep_stop {rest : Text} {min : Precedence} {r : Restrictions}
    (h : rest.Stops min r) (mode : Mode) (made : List Shape) :
    E.Goes (operatorStep min r) ⟨rest, mode, made⟩ false ⟨rest, .operator, made⟩ := by
  refine (goes_look _ _ _ _).bind ?_
  cases hop : infixOperator? r (rest.glimpse .operator) with
  | none => exact goes_pure _ _
  | some found =>
    obtain ⟨op, p⟩ := found
    exact Goes.of_pos (h op p hop) (goes_pure _ _)

end Setting

/-! ## Phrases that are read again -/

namespace Phrase

open Setting Trivia

variable {limits : Limits} {m n : Nat} {x y : Phrase} {tier : Precedence} {free : Bool}

variable [Alphabet]

/-- With `n` levels left, the phrase is read as the beginning of a chain: where the rounds of the
chain lead from behind it, there the operand leads from in front of it. -/
def Chains (limits : Limits) (n : Nat) (x : Phrase) : Prop :=
  ∀ depth ≥ n, ∀ tail more, Ends tail more → ∀ mode made d,
    (atDepth limits depth).Rounds (link true) ⟨more, .operator, x tail :: made⟩ d →
    (atDepth limits depth).Goes unaryRule ⟨(x tail).source ++ more, mode, made⟩ () d

/-- With `n` levels left, the phrase is read as an operand. -/
def Stands (limits : Limits) (n : Nat) (x : Phrase) : Prop :=
  ∀ depth ≥ n, ∀ tail more, Ends tail more → more.ahead ∉ linkKinds → ∀ mode made,
    (atDepth limits depth).Goes unaryRule ⟨(x tail).source ++ more, mode, made⟩ ()
      ⟨more, .operator, x tail :: made⟩

/-- With `n` levels left, the phrase is read as the beginning of an expression: where the operators
behind it lead, there the expression leads from in front of it.  Where `in` is no operator, the
phrase has to be free of it. -/
def Spans (limits : Limits) (n rank : Nat) (free : Bool) (x : Phrase) : Prop :=
  ∀ depth ≥ n, ∀ min r, min.rank ≤ rank → (r.noIn = true → free = true) →
    (r.noSequence = true → 1 ≤ rank) → ∀ tail more, Ends tail more → more.Follows rank →
    ∀ mode made d,
      (atDepth limits depth).Rounds (operatorStep min r) ⟨more, .operator, x tail :: made⟩ d →
      (atDepth limits depth).Goes (expressionRule min r) ⟨(x tail).source ++ more, mode, made⟩ () d

theorem Chains.stands (h : Chains limits n x) : Stands limits n x :=
  fun depth hdepth tail more hends hlinks mode made =>
    h depth hdepth tail more hends mode made _ (.last (goes_link_stop hlinks true _ _))

theorem Stands.spans (h : Stands limits n x) (rank : Nat) (free : Bool) :
    Spans limits (n + 1) rank free x := by
  intro depth hdepth min r _ _ _ tail more hends hfollows mode made d hrounds
  obtain ⟨below, rfl⟩ : ∃ below, depth = below + 1 := ⟨depth - 1, by omega⟩
  have hoperand := goes_call .unary <|
    h below (by omega) tail more hends hfollows.links mode made
  rw [expressionRule_eq]
  exact hoperand.bind (goes_loop hrounds)

/-- A phrase of a tier is read again, with `n` levels left for it as an operand. -/
structure Readable (limits : Limits) (n : Nat) (tier : Precedence) (free : Bool) (x : Phrase) :
    Prop where
  chains : tier = .primary → Chains limits n x
  stands : Precedence.unary.rank ≤ tier.rank → Stands limits n x
  spans : Spans limits (n + 1) tier.rank free x

/-- The text of a phrase opens an expression. -/
def Opens (x : Phrase) : Prop :=
  ∀ tail more, Ends tail more → Text.Opens ((x tail).source ++ more)

/-- A phrase is read again, and opens an expression. -/
structure Legible (limits : Limits) (n : Nat) (tier : Precedence) (free : Bool) (x : Phrase) :
    Prop extends Readable limits n tier free x where
  opens : x.Opens

theorem Chains.readable (h : Chains limits n x) (free : Bool) :
    Readable limits n .primary free x :=
  ⟨fun _ => h, fun _ => h.stands, h.stands.spans _ _⟩

theorem Stands.readable (h : Stands limits n x) (htier : tier ≠ .primary) (free : Bool) :
    Readable limits n tier free x :=
  ⟨fun hprimary => absurd hprimary htier, fun _ => h, h.spans _ _⟩

theorem Spans.readable (h : Spans limits (n + 1) tier.rank free x)
    (htier : tier.rank < Precedence.unary.rank) : Readable limits n tier free x := by
  refine ⟨fun hprimary => ?_, fun hle => absurd htier (Nat.not_lt.2 hle), h⟩
  subst hprimary
  exact absurd htier (by decide)

theorem Readable.mono (h : Readable limits m tier free x) (hle : m ≤ n) :
    Readable limits n tier free x where
  chains hprimary depth hdepth := h.chains hprimary depth (Nat.le_trans hle hdepth)
  stands hunary depth hdepth := h.stands hunary depth (Nat.le_trans hle hdepth)
  spans depth hdepth := h.spans depth (Nat.le_trans (Nat.succ_le_succ hle) hdepth)

theorem Legible.mono (h : Legible limits m tier free x) (hle : m ≤ n) :
    Legible limits n tier free x :=
  ⟨h.toReadable.mono hle, h.opens⟩

/-- **A readable phrase is read as a whole expression** where one ends behind it. -/
theorem Readable.goes_expression (h : Readable limits n tier free x) {depth : Nat}
    (hdepth : n + 2 ≤ depth) (min : Precedence) (r : Restrictions) (hmin : min.rank ≤ tier.rank)
    (hin : r.noIn = true → free = true) (hseq : r.noSequence = true → 1 ≤ tier.rank)
    {tail : List Trivia} {more : Text} (hends : Ends tail more)
    (hnext : more.Follows tier.rank ∧ more.Stops min r) (mode : Mode) (made : List Shape) :
    (atDepth limits depth).Goes (.call (.expression min r)) ⟨(x tail).source ++ more, mode, made⟩ ()
      ⟨more, .operator, x tail :: made⟩ := by
  obtain ⟨below, rfl⟩ : ∃ below, depth = below + 1 := ⟨depth - 1, by omega⟩
  have hrounds :
      (atDepth limits below).Rounds (operatorStep min r) ⟨more, .operator, x tail :: made⟩
      ⟨more, .operator, x tail :: made⟩ := .last (goes_operatorStep_stop hnext.2 _ _)
  exact goes_call _
    (h.spans below (by omega) min r hmin hin hseq tail more hends hnext.1 mode made _
    hrounds)

/-- Where nothing narrows the operators, any expression may stand, a sequence too. -/
theorem Readable.goes_whole (h : Readable limits n tier free x) {depth : Nat}
    (hdepth : n + 2 ≤ depth) {tail : List Trivia} {more : Text} (hends : Ends tail more)
    (hnext : more.Follows tier.rank ∧ more.Stops .comma {}) (mode : Mode) (made : List Shape) :
    (atDepth limits depth).Goes (.call (.expression .comma {}))
      ⟨(x tail).source ++ more, mode, made⟩
      () ⟨more, .operator, x tail :: made⟩ :=
  h.goes_expression hdepth .comma {} (Nat.zero_le _) nofun nofun hends hnext mode made

/-- A sign that closes something ends a whole expression. -/
theorem Readable.goes_closed (h : Readable limits n tier free x) {depth : Nat}
    (hdepth : n + 2 ≤ depth) {tail : List Trivia} {more : Text} (hends : Ends tail more)
    (hclosing : more.ahead ∈ closingKinds) (mode : Mode) (made : List Shape) :
    (atDepth limits depth).Goes (.call (.expression .comma {}))
      ⟨(x tail).source ++ more, mode, made⟩
      () ⟨more, .operator, x tail :: made⟩ :=
  h.goes_whole hdepth hends (Text.follows_of_closing more hclosing _ _ _) mode made

/-! ## Chains -/

/-- An operand begins a chain if it is neither an operator in front of another nor the word
`new`. -/
theorem Chains.of_operand (g : Glimpse) {next : Glimpse → Parser Unit}
    (hnext : operand = Parser.look .exprStart >>= next)
    (hfirst : ∀ tail more, Ends tail more →
      Text.glimpse .exprStart ((x tail).source ++ more) = g)
    (hleading : leadingOperator? g = none) (hnew : g.isWord "new" = false)
    (hoperand : ∀ depth ≥ n, ∀ tail more, Ends tail more → ∀ made,
      (atDepth limits depth).Goes (next g) ⟨(x tail).source ++ more, .exprStart, made⟩ ()
        ⟨more, .operator, x tail :: made⟩) :
    Chains limits n x := by
  intro depth hdepth tail more hends mode made d hrounds
  have hglimpse := hfirst tail more hends
  have hchained : (atDepth limits depth).Goes chained
      ⟨(x tail).source ++ more, .exprStart, made⟩ () d := by
    refine (goes_look _ _ _ _).bind ?_
    rw [hglimpse]
    have hnot : ¬g.isWord "new" = true := by simp [hnew]
    have hmade : (atDepth limits depth).Goes operand ⟨(x tail).source ++ more, .exprStart, made⟩ ()
        ⟨more, .operator, x tail :: made⟩ := by
      rw [hnext]
      refine (goes_look _ _ _ _).bind ?_
      rw [hglimpse]
      exact hoperand depth hdepth tail more hends made
    exact (Goes.of_neg hnot hmade).bind (goes_loop hrounds)
  refine (goes_look _ _ _ _).bind ?_
  rw [hglimpse, hleading]
  exact hchained

/-! ## Phrases that begin with another one -/

/-- A phrase as the first child of a node, with the others behind it. -/
def heads (x : Phrase) (node : Kind) (field : Field) (others : List Trivia → List Shape) : Phrase :=
  fun tail => .node node none ((x gap).withField field :: others tail)

section
variable {node : Kind} {field : Field} {others : List Trivia → List Shape}

omit [Alphabet] in
theorem source_heads_append (x : Phrase) (node : Kind) (field : Field)
    (others : List Trivia → List Shape) (tail : List Trivia) (more : Text) :
    (x.heads node field others tail).source ++ more =
      (x gap).source ++ (Shape.sourceAll (others tail) ++ more) := by
  rw [heads, Shape.source, Shape.sourceAll, Shape.source_withField, List.append_assoc]

/-- A phrase opens an expression if one does that it begins with. -/
theorem Opens.heads (hx : x.Opens) (node : Kind) (field : Field)
    (hothers : ∀ tail more, Ends tail more → Text.Solid (Shape.sourceAll (others tail) ++ more)) :
    (x.heads node field others).Opens := by
  intro tail more hends
  rw [source_heads_append]
  exact hx gap _ (ends_gap (hothers tail more hends))

/-- A phrase that begins with another one is read again; it opens an expression if that one does. -/
structure ReadableOn (limits : Limits) (n : Nat) (tier : Precedence) (free : Bool) (x y : Phrase) :
    Prop extends Readable limits n tier free y where
  opens : x.Opens → y.Opens

theorem ReadableOn.legible (h : ReadableOn limits n tier free x y) (hx : x.Opens) :
    Legible limits n tier free y :=
  ⟨h.toReadable, h.opens hx⟩

/-- A link goes on with a chain. -/
theorem Readable.link (hx : Readable limits m .primary free x) (hle : m ≤ n)
    (hothers : ∀ tail more, Ends tail more → Text.Solid (Shape.sourceAll (others tail) ++ more))
    (hlink : ∀ depth ≥ n, ∀ tail more, Ends tail more → ∀ made,
      (atDepth limits depth).Goes (link true)
        ⟨Shape.sourceAll (others tail) ++ more, .operator, x gap :: made⟩ true
        ⟨more, .operator, x.heads node field others tail :: made⟩) (free' : Bool) :
    ReadableOn limits n .primary free' x (x.heads node field others) := by
  refine ⟨Chains.readable ?_ free', fun hx => hx.heads node field hothers⟩
  intro depth hdepth tail more hends mode made d hrounds
  rw [source_heads_append]
  exact hx.chains rfl depth (Nat.le_trans hle hdepth) gap _
    (ends_gap (hothers tail more hends)) mode
    made d (.more (hlink depth hdepth tail more hends made) hrounds)

end

/-! ## Parentheses -/

variable {inner : List Trivia}

omit [Alphabet] in
/-- Behind a phrase in parentheses stands the closing one. -/
theorem ends_rParen (hinner : inner = gap ∨ inner = []) (field : Option Field) (tail : List Trivia)
    (more : Text) : Ends inner ((Shape.sign .rParen field tail).source ++ more) := by
  rcases hinner with rfl | rfl
  · exact ends_gap (Mode.operator.solid_sign .rParen rfl field _ _)
  · exact ends_nil (by decide)

omit [Alphabet] in
theorem source_parens_append (inner : List Trivia) (x : Phrase) (tail : List Trivia) (more : Text) :
    (Shape.parens inner x tail).source ++ more =
      (Shape.sign .lParen none inner).source ++
        ((x inner).source ++ ((Shape.sign .rParen none tail).source ++ more)) := by
  simp only [Shape.parens, Shape.source, Shape.sourceAll, Shape.source_withField, List.append_assoc,
    List.nil_append]

/-- **In parentheses every legible phrase begins a chain.** -/
theorem Legible.parens (hl : limits.Endless) (h : Legible limits n tier free x)
    (hinner : inner = gap ∨ inner = []) (free' : Bool) :
    Legible limits (n + 2) .primary free' (Shape.parens inner x) := by
  have hsolid {tail : List Trivia} {more : Text} (hends : Ends tail more) :
      Text.Solid ((x inner).source ++ ((Shape.sign .rParen none tail).source ++ more)) :=
    (h.opens inner _ (ends_rParen hinner none tail more)).solid
  have hread {mode : Mode} (hmode : mode = .operator ∨ mode = .exprStart) {tail : List Trivia}
      {more : Text} (hends : Ends tail more) :=
    Mode.reads_lParen hmode hinner (hsolid hends)
  refine
    ⟨(Chains.of_operand ⟨.lParen, Kind.lParen.text, false⟩ rfl ?_ rfl rfl ?_).readable free', ?_⟩
  · intro tail more hends
    rw [source_parens_append]
    exact (hread (.inr rfl) hends).glimpse
  · intro depth hdepth tail more hends made
    have hclose := Mode.operator.reads_sign .rParen rfl hends none
    have hinside := h.goes_closed hdepth (ends_rParen hinner none tail more)
      (by rw [hclose.ahead]; decide) .operator [Shape.sign .lParen none inner]
    rw [source_parens_append]
    exact goes_nodeOf hl <| (goes_take hl (hread (.inr rfl) hends) none).bind <|
      (goes_callIn hinside).bind (goes_expect hl hclose)
  · intro tail more hends
    rw [source_parens_append]
    exact Text.opens_of_reads (hread (.inl rfl) hends)
      (Trivia.solid_cons (by decide) (by decide) (by decide) _) (by decide)

end Phrase

/-! ## Slots -/

/-- The tier of a phrase in a slot: what is too loose for the slot is put in parentheses. -/
def Precedence.fit (tier : Precedence) (floor : Nat) : Precedence :=
  if tier.rank < floor then .primary else tier

theorem Precedence.le_rank_fit {tier : Precedence} {floor : Nat}
    (hfloor : floor ≤ Precedence.primary.rank) : floor ≤ (tier.fit floor).rank := by
  unfold fit
  split
  · exact hfloor
  · exact Nat.le_of_not_lt ‹_›

theorem Precedence.fit_primary (tier : Precedence) :
    tier.fit Precedence.primary.rank = .primary := by
  cases tier <;> rfl

namespace Phrase

open Setting Trivia

variable {limits : Limits} {n : Nat} {x : Phrase} {tier : Precedence} {free : Bool}

variable [Alphabet]

/-- **In parentheses where need be, a phrase fits into its slot.** -/
theorem Legible.bracket (hl : limits.Endless) (h : Legible limits n tier free x) (floor : Nat) :
    Legible limits (n + 2) (tier.fit floor) (tier.rank < floor || free)
      (Shape.bracket (tier.rank < floor) x) := by
  unfold Shape.bracket Precedence.fit
  by_cases hlow : tier.rank < floor
  · simp only [hlow, decide_true, if_true]
    exact h.parens hl (.inl rfl) _
  · simp only [hlow, decide_false, if_false, Bool.false_or]
    exact h.mono (Nat.le_add_right n 2)

theorem Legible.opens_slot (hl : limits.Endless) (h : Legible limits n tier free x) (floor : Nat)
    (field : Field) (tail : List Trivia) (more : Text) (hends : Ends tail more) :
    Text.Opens ((Shape.slot field (tier.rank < floor) x tail).source ++ more) := by
  rw [Shape.slot, Shape.source_withField]
  exact (h.bracket hl floor).opens tail more hends

/-- **A phrase in a slot is read as an expression**, where one of the tier of the slot ends. -/
theorem Legible.goes_slot (hl : limits.Endless) (h : Legible limits n tier free x) {depth : Nat}
    (hdepth : n + 4 ≤ depth) (floor : Nat) (min : Precedence) (r : Restrictions)
    (hmin : min.rank = floor) (hfloor : 1 ≤ floor) (hprimary : floor ≤ Precedence.primary.rank)
    (hin : r.noIn = true → (decide (tier.rank < floor) || free) = true) {tail : List Trivia}
    {more : Text} (hends : Ends tail more) (hnext : more.Follows floor ∧ more.Stops min r)
    (field : Field) (mode : Mode) (made : List Shape) :
    (atDepth limits depth).Goes (callIn field (.expression min r))
      ⟨(Shape.slot field (tier.rank < floor) x tail).source ++ more, mode, made⟩ ()
      ⟨more, .operator, Shape.slot field (tier.rank < floor) x tail :: made⟩ := by
  have hrank : floor ≤ (tier.fit floor).rank := Precedence.le_rank_fit hprimary
  rw [Shape.slot, Shape.source_withField]
  exact goes_callIn <| (h.bracket hl floor).goes_expression hdepth min r (by omega) hin
    (fun _ => by omega)
    hends ⟨hnext.1.mono hrank, hnext.2⟩ mode made

theorem Legible.bracket_primary (hl : limits.Endless) (h : Legible limits n tier free x)
    (free' : Bool) :
    Legible limits (n + 2) .primary free'
      (Shape.bracket (tier.rank < Precedence.primary.rank) x) := by
  have hfits := h.bracket hl Precedence.primary.rank
  rw [tier.fit_primary] at hfits
  exact ⟨(hfits.chains rfl).readable free', hfits.opens⟩

end Phrase

end ActionScript
