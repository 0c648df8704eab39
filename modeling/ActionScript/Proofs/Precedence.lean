import ActionScript.Proofs.Outcome
import ActionScript.Proofs.Routines

/-!
# Operators group by precedence

An expression returns only where the next operator is looser than what it was asked for.  So what
stands in front of an operator when it is found binds at least as tightly, and what it asks for
behind itself binds more tightly.  By induction on the levels of nesting, every node of a parse is
grouped as the table of precedences says, unless a rule was cut off for nesting too deeply.

* `Setting.endsWhole_chain`: accesses, calls and updates apply to whole operands.
* `Setting.groups_expressionRule`: operators between operands.
* `grouping_of_parseWithin`: **every node of every tree.**
-/

set_option autoImplicit false

namespace ActionScript

open ActionScript.Parser ActionScript.Grammar

/-! ## Tiers around an operator -/

namespace Precedence

theorem floor_fieldBefore (p : Precedence) : p.floor (fieldBefore p) = p.leftFloor := by
  cases p <;> rfl

/-- An operator that does not belong into what is behind another one may have that other one in
front of it. -/
theorem leftFloor_le_rank {p q : Precedence} (h : q.rank < p.rightFloor) :
    q.leftFloor ≤ p.rank := by
  cases p <;> cases q <;> revert h <;> decide

theorem logicalOr_rank_le {p : Precedence} (hcomma : p ≠ .comma) (hassignment : p ≠ .assignment)
    (hternary : p ≠ .ternary) : Precedence.logicalOr.rank ≤ p.rank := by
  cases p <;> first | contradiction | decide

/-- Behind an operator that groups from the left stands what binds more tightly. -/
theorem rank_tighter {p : Precedence} (hlow : p.rank < Precedence.unary.rank) (hcomma : p ≠ .comma)
    (hassignment : p ≠ .assignment) (hternary : p ≠ .ternary) :
    p.tighter.rank = p.rightFloor := by
  cases p <;> first | rfl | contradiction

end Precedence

/-- The restrictions on an operand rule out nothing but a comma. -/
theorem infixOperator?_operand {r : Restrictions} {g : Glimpse} {op : Kind} {p : Precedence}
    (h : infixOperator? r g = some (op, p)) :
    p = .comma ∨ infixOperator? r.operand g = some (op, p) := by
  unfold infixOperator? at h ⊢
  split at h
  · exact .inr h
  · left
    split at h
    · cases h
    · cases h
      rfl
  · exact .inr h

namespace Setting

variable [Alphabet] {E : Setting} {s : State}

/-! ## Accesses, calls and updates -/

/-- The ranks in a node that applies to a whole operand in one slot. -/
def wholeIn (field : Field) (f : Field) : Nat := if f = field then Precedence.unary.rank else 0

/-- The kind is that of a node which applies to a whole operand in the slot, and has no condition on
any other. -/
def AppliesTo (field : Field) (kind : Kind) : Prop :=
  kind.isInfix = false ∧ ∀ f, (kind, f) ∈ operandSlots → f = field

omit [Alphabet] in
/-- No kind applies to whole operands in two slots. -/
theorem appliesTo_of_mem {kind : Kind} {field : Field} (h : (kind, field) ∈ operandSlots) :
    AppliesTo field kind := by
  have key : ∀ slot ∈ operandSlots, ∀ other ∈ operandSlots, other.1 = slot.1 →
      other.2 = slot.2 := by
    decide
  exact ⟨isInfix_of_mem_operandSlots h, fun f hf => key _ h _ hf rfl⟩

omit [Alphabet] in
/-- A node that applies to a whole operand is grouped, and is a whole operand itself. -/
theorem grouped_close_whole {field : Field} {kind : Kind} {outer : List Shape}
    (hkind : AppliesTo field kind) (hs : s.Grouped) (hfits : s.Fits (wholeIn field))
    (houter : ∀ c ∈ outer, c.Grouped) :
    (s.close outer kind).Grouped ∧ (s.close outer kind).EndsAtLeast Precedence.unary.rank := by
  have htier := Face.tierOf?_of_not_isInfix hkind.1
  refine ⟨State.grouped_close hs houter ⟨fun h => ?_, fun p _ hp => ?_, fun p hp => ?_,
    fun c hc f hf hslot => ?_⟩, State.endsAtLeast_close _ _ hkind.1 _⟩
  · rw [hkind.1] at h
    cases h
  · rw [htier] at hp
    cases hp
  · rw [htier] at hp
    cases hp
  · obtain ⟨d, hd, rfl⟩ := List.mem_map.1 hc
    have hleast := hfits d (List.mem_reverse.1 hd) f hf
    rw [wholeIn, if_pos (hkind.2 f hslot)] at hleast
    exact Shape.tier?_eq_none hleast

/-- On a clean run all children are grouped, and the last one is a whole operand. -/
def EndsWhole (s : State) : Prop :=
  s.Clean → s.Grouped ∧ s.EndsAtLeast Precedence.unary.rank

/-- Wrapped into an access, a call or an update, a whole operand makes another one. -/
theorem endsWhole_wrap (hE : E.Groups) {field : Field} {body : Parser Kind}
    (hplain : body.Plain) (hlabels : body.Labels fun f => wholeIn field f = 0)
    (hkind : body.Yields (AppliesTo field)) (h : EndsWhole s) :
    EndsWhole (E.after (.wrap field body) s) := by
  intro hclean
  obtain ⟨hs, hends⟩ := h ((E.leads_after _ s).clean hclean)
  rw [after_wrap] at hclean ⊢
  have hfirst : s.EndsAtLeast (wholeIn field field) := by
    rw [wholeIn, if_pos rfl]
    exact hends
  exact grouped_close_whole (hkind.val E _) (grouped_after hE hplain (hs.wrapped _ _) hclean)
    (fits_after hlabels (State.fits_wrapped hfirst _)) fun c hc => hs c (List.mem_of_mem_drop hc)

theorem endsWhole_genericType (hE : E.Groups) (h : EndsWhole s) :
    EndsWhole (E.after (wrap .base do
      typeArguments
      return .genericType) s) := by
  refine endsWhole_wrap hE (by simp) ?_ (by simp +decide [appliesTo_of_mem]) h
  simp [typeArguments, wholeIn]

/-- A whole operand is still one behind an access, a call or an update. -/
theorem endsWhole_link (hE : E.Groups) (calls : Bool) (h : EndsWhole s) :
    EndsWhole (E.after (link calls) s) := by
  have hwrap {field : Field} {body : Parser Kind} {goesOn : Bool} (hplain : body.Plain)
      (hlabels : body.Labels fun f => wholeIn field f = 0)
      (hkind : body.Yields (AppliesTo field)) :
      EndsWhole (E.after (do
        wrap field body
        return goesOn) (s.inMode .operator)) :=
    endsWhole_wrap hE hplain hlabels hkind h
  simp only [link, after_bind, val_look, after_look, glimpse_kind]
  split
  · refine hwrap (by simp) ?_ (by simp +decide [appliesTo_of_mem])
    simp [expression, wholeIn, labels_propertyName]
  · refine hwrap (by simp) ?_ (by simp +decide [appliesTo_of_mem])
    simp [wholeIn, labels_propertyName]
  · refine hwrap (by simp) ?_ (by simp +decide [appliesTo_of_mem])
    simp [wholeIn, labels_propertyName]
  · rw [after_bind, after_pure]
    exact endsWhole_genericType hE h
  · refine hwrap (by simp) ?_ (by simp +decide [appliesTo_of_mem])
    simp [expression, wholeIn]
  · rw [after_ite]
    split
    · refine hwrap (by simp) ?_ (by simp +decide [appliesTo_of_mem])
      simp [wholeIn, arguments]
    · exact h
  · rw [after_ite]
    split
    · exact hwrap (by simp) (by simp) (by simp +decide [appliesTo_of_mem])
    · exact h
  · rw [after_ite]
    split
    · exact hwrap (by simp) (by simp) (by simp +decide [appliesTo_of_mem])
    · exact h
  · exact h

theorem endsWhole_chain (hE : E.Groups) (calls : Bool) (h : EndsWhole s) :
    EndsWhole (E.after (chain calls) s) :=
  after_loop_induct EndsWhole h (fun _ _ h => h) fun _ => endsWhole_link hE calls

theorem endsWhole_of_tops (hE : E.Groups) {p : Parser Unit} (hplain : p.Plain) (htops : p.Tops)
    (hs : s.Grouped) : EndsWhole (E.after p s) := fun hclean =>
  ⟨grouped_after hE hplain hs hclean, endsAtLeast_after hE hplain htops hs hclean⟩

/-- What a chain begins with is a whole operand. -/
theorem endsWhole_chainHead (hE : E.Groups) (g : Glimpse) (hs : s.Grouped) :
    EndsWhole (E.after (if g.isWord "new" then call .construction else operand) s) :=
  endsWhole_of_tops hE (by simp) (by simp [tops_operand, Rule.floor]) hs

/-- What a rule makes fits into a slot that does not ask for more. -/
theorem fits_callIn (hE : E.Groups) {least : Field → Nat} {field : Field} {rule : Rule}
    (hs : s.Grouped) (hfits : s.Fits least) (hle : least field ≤ rule.floor)
    (hclean : (E.after (callIn field rule) s).Clean) :
    (E.after (callIn field rule) s).Grouped ∧ (E.after (callIn field rule) s).Fits least ∧
      rule.Stops (E.after (callIn field rule) s) := by
  rw [after_callIn] at hclean ⊢
  have hcalled : (E.apply rule s).Clean := (State.Leads.labelLast _ field).clean hclean
  obtain ⟨hgrouped, hends, hstops⟩ := hE rule s hs hcalled
  obtain ⟨kind, children, hmakes⟩ := E.makes rule s
  refine ⟨State.grouped_labelLast hgrouped field, ?_, ?_⟩
  · exact State.fits_labelLast (hfits.made (fun _ hc => hc) hmakes) hends hle
  · cases rule with
    | expression min r => simpa [Rule.Stops, State.StopsBelow] using hstops
    | _ => trivial

/-! ## The rules below operators -/

/-- An operator in front of a whole operand makes another one. -/
theorem endsWhole_leading (hE : E.Groups) {kind : Kind}
    (hkind : AppliesTo .argument kind) (op : Kind) (hs : s.Grouped) :
    EndsWhole (E.after (nodeOf kind do
      takeOperator op
      callIn .argument .unary) s) := by
  intro hclean
  rw [after_nodeOf, after_bind] at hclean ⊢
  have hplain : (takeOperator op).Plain := by simp [takeOperator]
  have hlabels : (takeOperator op).Labels fun f => wholeIn .argument f = 0 := by
    simp [takeOperator]
  have htaken := grouped_after hE hplain (s := s.enter E.limits []) (fun c hc => (by cases hc))
    ((E.leads_after _ _).clean hclean)
  have hempty : (s.enter E.limits []).Fits (wholeIn .argument) := fun c hc => (by cases hc)
  obtain ⟨hgrouped, hfits, -⟩ :=
    fits_callIn hE htaken (fits_after hlabels hempty) (by decide) hclean
  exact grouped_close_whole hkind hgrouped hfits hs

theorem endsWhole_unaryRule (hE : E.Groups) (hs : s.Grouped) :
    EndsWhole (E.after unaryRule s) := by
  simp only [unaryRule, after_bind, val_look, after_look]
  split
  · exact endsWhole_chain hE true (endsWhole_chainHead hE _ hs)
  · rename_i op hop
    refine endsWhole_leading hE ?_ op hs
    split
    · exact appliesTo_of_mem (by decide)
    · exact appliesTo_of_mem (by decide)

/-- A node of a plain kind is a whole operand. -/
theorem endsWhole_node {body : Parser (Kind × Unit)}
    (hkind : body.Yields fun made => made.1.isPlain = true) (hs : s.Grouped)
    (hbody : (E.after body (s.enter E.limits [])).Clean →
      (E.after body (s.enter E.limits [])).Grouped) : EndsWhole (E.after (node body) s) := by
  intro hclean
  have hplain := hkind.val E (s.enter E.limits [])
  rw [after_node] at hclean ⊢
  exact ⟨State.grouped_close (hbody hclean) hs (.of_isPlain hplain _),
    State.endsAtLeast_close _ _ (Kind.isInfix_of_isPlain hplain) _⟩

theorem endsWhole_constructionRule (hE : E.Groups) (hs : s.Grouped) :
    EndsWhole (E.after constructionRule s) := by
  refine endsWhole_node (by simp +decide) hs ?_
  rw [after_bind, after_bind, after_ite]
  have htaken : (E.after (look .exprStart) (E.after (takeWord .newKw none)
      (s.enter E.limits []))).Grouped := State.grouped_takeAs (fun c hc => (by cases hc)) _ _ _
  generalize E.after (look .exprStart) (E.after (takeWord .newKw none) (s.enter E.limits [])) = t
    at htaken ⊢
  generalize E.val (look .exprStart) (E.after (takeWord .newKw none) (s.enter E.limits [])) = g
  split
  · exact grouped_after hE (by simp) htaken
  · intro hclean
    rw [after_bind, after_bind] at hclean ⊢
    have hchain := endsWhole_chain hE false (endsWhole_chainHead hE g htaken)
    exact grouped_after hE (by simp) (hchain ((E.leads_after _ _).clean hclean)).1 hclean

theorem grouped_typeRule (hE : E.Groups) (hs : s.Grouped) (hclean : (E.after typeRule s).Clean) :
    (E.after typeRule s).Grouped := by
  have hplain {p : Parser Unit} (hp : p.Plain) : (E.after p (s.inMode .typeArgs)).Clean →
      (E.after p (s.inMode .typeArgs)).Grouped := grouped_after hE hp hs
  revert hclean
  simp only [typeRule, after_bind, val_look, after_look, glimpse_kind]
  split
  · exact hplain (by simp +decide)
  · rw [after_ite]
    split
    · exact hplain (by simp +decide)
    · have hname : EndsWhole (E.after typeName (s.inMode .typeArgs)) :=
        endsWhole_of_tops hE (by simp) (by simp [typeName, Kind.isInfix]) hs
      rw [after_bind, after_bind, after_when]
      generalize E.after typeName (s.inMode .typeArgs) = t at hname ⊢
      split
      · exact fun hclean => (endsWhole_genericType (s := t.inMode .typeArgs) hE hname hclean).1
      · exact fun hclean => (hname hclean).1
  · exact hplain (by simp +decide)

/-! ## Operators between operands -/

/-- What stands in the node of an operator, once its last operand has been taken. -/
structure Complete (p : Precedence) (r : Restrictions) (kind : Kind) (t : State) : Prop where
  grouped : t.Grouped
  fits : t.Fits p.floor
  stops : t.StopsBelow r.operand p.rightFloor
  tier : Face.tierOf? kind (t.children.reverse.map Shape.face) = some p
  binary : kind = .binaryExpr → Precedence.logicalOr.rank ≤ p.rank

omit [Alphabet] in
/-- The operator in its slot gives the node its tier. -/
theorem tierOf?_binaryExpr {op : Kind} {p : Precedence} {cs : List Shape} {kind : Kind}
    {children : List Shape} {leading : List Trivia} {text : Text} {trailing : List Trivia}
    (hp : op.precedence? = some p) (hcs : ∀ c ∈ cs, c.face.field ≠ some .operator) :
    Face.tierOf? .binaryExpr ((.node kind (some .right) children ::
      .token op (some .operator) leading text trailing :: cs).reverse.map Shape.face) = some p := by
  have hnone : (cs.reverse.map Shape.face).find? (fun c => c.field == some .operator) = none := by
    rw [List.find?_eq_none]
    intro c hc
    obtain ⟨d, hd, rfl⟩ := List.mem_map.1 hc
    simpa using hcs d (List.mem_reverse.1 hd)
  rw [Face.tierOf?]
  simp only [List.reverse_cons, List.append_assoc, List.map_append, List.find?_append, hnone]
  simp [Shape.face, hp]

/-- The operand behind an operator completes its node. -/
theorem complete_right (hE : E.Groups) {min p : Precedence} {r : Restrictions} {kind : Kind}
    {field : Field} (hmin : min.rank = p.rightFloor) (hfield : p.floor field = p.rightFloor)
    (hs : s.Grouped) (hfits : s.Fits p.floor)
    (hclean : (E.after (callIn field (.expression min r.operand)) s).Clean)
    (htier : Face.tierOf? kind
      ((E.after (callIn field (.expression min r.operand)) s).children.reverse.map Shape.face) =
        some p)
    (hbinary : kind = .binaryExpr → Precedence.logicalOr.rank ≤ p.rank) :
    Complete p r kind (E.after (callIn field (.expression min r.operand)) s) := by
  have hle : p.floor field ≤ (Rule.expression min r.operand).floor := by
    rw [hfield, ← hmin]
    exact Nat.le_refl _
  obtain ⟨hgrouped, hfits, hstops⟩ := fits_callIn hE hs hfits hle hclean
  exact ⟨hgrouped, hfits, fun q op h => hmin ▸ hstops q op h, htier, hbinary⟩

/-- An operator that stands there is taken as itself into its slot. -/
theorem after_takeOperator {op : Kind} (h : s.token.StandsFor op) :
    E.after (takeOperator op) s = s.takeAs E.limits op (some .operator) := by
  rw [takeOperator, after_ite, after_takeWord, after_take]
  split
  · rfl
  · rename_i hkey
    rcases h with hword | hsign
    · exact absurd hword.2.1 hkey
    · rw [hsign]

/-- The first operand, the operator and the second operand complete a node. -/
theorem complete_binary (hE : E.Groups) {op : Kind} {p : Precedence} {r : Restrictions}
    (hp : op.precedence? = some p) (hmin : p.tighter.rank = p.rightFloor)
    (hbinary : Precedence.logicalOr.rank ≤ p.rank)
    (hsees : s.Sees (Token.StandsFor op)) (hs : s.Grouped) (hfits : s.Fits p.floor)
    (hfields : ∀ c ∈ s.children, c.face.field ≠ some .operator)
    (hclean : (E.after (do
      (if op == .asKw then takeWord .asKw none else takeOperator op)
      callIn .right (.expression p.tighter r.operand)) s).Clean) :
    Complete p r (if op == .asKw then .castExpr else .binaryExpr) (E.after (do
      (if op == .asKw then takeWord .asKw none else takeOperator op)
      callIn .right (.expression p.tighter r.operand)) s) := by
  have hstands := hsees ((E.leads_after _ s).clean hclean).1
  rw [after_bind, after_ite, after_takeWord, after_takeOperator hstands] at hclean ⊢
  by_cases has : op = .asKw
  · subst has
    obtain rfl : p = .relational := (Option.some.inj hp).symm
    exact complete_right hE rfl rfl (State.grouped_takeAs hs _ _ _)
      (State.fits_takeAs hfits _ _ _) hclean rfl fun _ => hbinary
  · have hne : ¬(op == .asKw) = true := by simpa using has
    rw [if_neg hne] at hclean ⊢
    rw [if_neg hne]
    refine complete_right hE hmin rfl (State.grouped_takeAs hs _ _ _)
      (State.fits_takeAs hfits _ _ _) hclean ?_ fun _ => hbinary
    obtain ⟨made, children, hmakes⟩ := E.makes (.expression p.tighter r.operand)
      (s.takeAs E.limits op (some .operator))
    rw [after_callIn, State.labelLast_children _ _ hmakes, State.takeAs_children]
    exact tierOf?_binaryExpr hp hfields

/-- What an operator takes in completes its node. -/
theorem complete_operation (hE : E.Groups) {op : Kind} {p : Precedence} {r : Restrictions}
    (hp : op.precedence? = some p) (hsees : s.Sees (Token.StandsFor op)) (hs : s.Grouped)
    (hfits : s.Fits p.floor) (hfields : ∀ c ∈ s.children, c.face.field ≠ some .operator)
    (hclean : (E.after (operation op p r) s).Clean) :
    Complete p r (E.val (operation op p r) s) (E.after (operation op p r) s) := by
  have htaken (kind : Kind) (field : Option Field) :
      (s.takeAs E.limits kind field).Grouped ∧ (s.takeAs E.limits kind field).Fits p.floor :=
    ⟨State.grouped_takeAs hs _ _ _, State.fits_takeAs hfits _ _ _⟩
  revert hclean
  unfold operation
  split <;> intro hclean
  · simp only [after_bind, val_bind, after_take, after_pure, val_pure] at hclean ⊢
    exact complete_right hE rfl rfl (htaken _ _).1 (htaken _ _).2 hclean rfl nofun
  · simp only [after_bind, val_bind, after_take, after_pure, val_pure] at hclean ⊢
    refine complete_right hE rfl rfl (htaken _ _).1 (htaken _ _).2 hclean ?_ ?_
    · split <;> rfl
    · split <;> nofun
  · simp only [after_bind, val_bind, after_take, after_pure, val_pure] at hclean ⊢
    generalize ht : E.after (callIn .consequence (.expression .assignment { noSequence := true }))
      (s.takeAs E.limits s.token.kind none) = t at hclean ⊢
    have hexpect := (E.leads_after _ _).clean hclean
    have htclean := (E.leads_after _ _).clean hexpect
    rw [← ht] at htclean
    obtain ⟨hg, hf, -⟩ := fits_callIn hE (htaken _ _).1 (htaken _ _).2 (Nat.le_refl _) htclean
    rw [ht] at hg hf
    exact complete_right hE rfl rfl (grouped_after hE (plain_expect _) hg hexpect)
      (fits_after (labels_expect _) hf) hclean rfl nofun
  · rename_i hcomma hassignment hternary
    simp only [after_bind, val_bind, after_pure, val_pure] at hclean ⊢
    exact complete_binary hE hp
      (Precedence.rank_tighter (Kind.rank_precedence?_lt hp) hcomma hassignment hternary)
      (Precedence.logicalOr_rank_le hcomma hassignment hternary) hsees hs hfits hfields hclean

/-- A complete node is grouped, and has the tier of its operator. -/
theorem Complete.close {p : Precedence} {r : Restrictions} {kind : Kind} {t : State}
    {outer : List Shape} (h : Complete p r kind t) (houter : ∀ c ∈ outer, c.Grouped) :
    (t.close outer kind).Grouped ∧
      ∀ c rest, (t.close outer kind).children = c :: rest → c.face.tier? = some p := by
  have hinfix : kind.isInfix = true := by
    by_contra hnot
    have htier := h.tier
    rw [Face.tierOf?_of_not_isInfix (by simpa using hnot)] at htier
    cases htier
  refine ⟨State.grouped_close h.grouped houter ⟨fun _ => ?_, fun q hkind hq => ?_,
    fun q hq c hc f hf => ?_, fun c _ f _ hslot => ?_⟩, ?_⟩
  · rw [h.tier]
    rfl
  · obtain rfl : p = q := Option.some.inj (h.tier.symm.trans hq)
    exact h.binary hkind
  · obtain rfl : p = q := Option.some.inj (h.tier.symm.trans hq)
    obtain ⟨d, hd, rfl⟩ := List.mem_map.1 hc
    exact h.fits d (List.mem_reverse.1 hd) f hf
  · rw [isInfix_of_mem_operandSlots hslot] at hinfix
    cases hinfix
  · intro c rest hc
    rw [State.close_children, List.cons.injEq] at hc
    obtain ⟨rfl, -⟩ := hc
    rw [Shape.face, Shape.faces_eq_map]
    exact h.tier

/-- **An operator takes its place.**  If what stands in front of it is tight enough, it makes a
grouped node of its own tier, behind which no operator follows that should have been taken in. -/
theorem grouped_infix (hE : E.Groups) {r : Restrictions} {op : Kind} {p : Precedence}
    (hop : infixOperator? r (State.glimpse (s.place.next .operator).1) = some (op, p))
    (hs : s.Grouped) (hends : s.EndsAtLeast p.leftFloor)
    (hclean : (E.after (wrap (fieldBefore p) (operation op p r)) (s.inMode .operator)).Clean) :
    (E.after (wrap (fieldBefore p) (operation op p r)) (s.inMode .operator)).Grouped ∧
      (E.after (wrap (fieldBefore p) (operation op p r)) (s.inMode .operator)).EndsAtLeast p.rank ∧
      (E.after (wrap (fieldBefore p) (operation op p r)) (s.inMode .operator)).StopsBelow r.operand
        p.rightFloor := by
  obtain ⟨hp, hstands⟩ := infixOperator?_cases hop
  have hsees : (s.inMode .operator).Sees (Token.StandsFor op) := fun _ => hstands
  rw [after_wrap] at hclean ⊢
  have hfirst : (s.inMode .operator).EndsAtLeast (p.floor (fieldBefore p)) := by
    rw [p.floor_fieldBefore]
    exact hends
  have hfields : ∀ c ∈ ((s.inMode .operator).children.take 1).map (Shape.withField (fieldBefore p)),
      c.face.field ≠ some .operator := by
    intro c hc
    obtain ⟨d, -, rfl⟩ := List.mem_map.1 hc
    rw [Shape.face_withField]
    cases p <;> simp [fieldBefore]
  have hcomplete := complete_operation hE hp (hsees.enter E.limits _)
    (State.Grouped.wrapped (s := s.inMode .operator) hs E.limits (fieldBefore p))
    (State.fits_wrapped hfirst E.limits) hfields hclean
  obtain ⟨hgrouped, htier⟩ := hcomplete.close fun c hc => hs c (List.mem_of_mem_drop hc)
  refine ⟨hgrouped, fun c rest hc q hq => ?_, hcomplete.stops⟩
  rw [htier c rest hc] at hq
  cases hq
  exact Nat.le_refl _

theorem Safe.exists_exit {body : Parser Bool} (h : E.Safe (.loop body) s) (I : State → Prop)
    (hs : I s) (hbody : ∀ t, I t → E.val body t = true → I (E.after body t)) :
    ∃ t, I t ∧ E.val body t = false ∧ E.after (.loop body) s = E.after body t :=
  Proceeds.exists_exit hbody h hs

/-- What an expression has made so far is tight enough for it, and for the operator that follows. -/
structure Between (min : Precedence) (r : Restrictions) (t : State) : Prop where
  grouped : t.Grouped
  ends : t.EndsAtLeast min.rank
  next : ∀ op p, infixOperator? r (State.glimpse (t.place.next .operator).1) = some (op, p) →
    t.EndsAtLeast p.leftFloor

theorem between_unary (hE : E.Groups) (min : Precedence) (r : Restrictions) (hs : s.Grouped)
    (hclean : (E.apply .unary s).Clean) : Between min r (E.apply .unary s) := by
  obtain ⟨hgrouped, hends, -⟩ := hE .unary s hs hclean
  have hany (n : Nat) : (E.apply .unary s).EndsAtLeast n := fun c outer hc =>
    Face.atLeast_of_none (Shape.tier?_eq_none (hends c outer hc)) n
  exact ⟨hgrouped, hany _, fun _ p _ => hany p.leftFloor⟩

/-- An operator that the expression takes leaves it ready for the next one. -/
theorem Between.infix (hE : E.Groups) {min : Precedence} {r : Restrictions} {op : Kind}
    {p : Precedence} (h : Between min r s)
    (hop : infixOperator? r (State.glimpse (s.place.next .operator).1) = some (op, p))
    (hmin : min.rank ≤ p.rank)
    (hclean : (E.after (wrap (fieldBefore p) (operation op p r)) (s.inMode .operator)).Clean) :
    Between min r (E.after (wrap (fieldBefore p) (operation op p r)) (s.inMode .operator)) := by
  obtain ⟨hgrouped, hends, hstops⟩ := grouped_infix hE hop h.grouped (h.next op p hop) hclean
  refine ⟨hgrouped, fun c outer hc => (hends c outer hc).mono hmin, fun op' q hq c outer hc => ?_⟩
  have hle : q.leftFloor ≤ p.rank := by
    rcases infixOperator?_operand hq with rfl | hq
    · exact Nat.zero_le _
    · exact Precedence.leftFloor_le_rank (hstops op' q hq)
  exact (hends c outer hc).mono hle

/-- What an expression repeats behind its first operand. -/
def operatorStep (min : Precedence) (r : Restrictions) : Parser Bool := do
  let g ← look .operator
  match infixOperator? r g with
  | none => return false
  | some (op, p) =>
    if p.rank < min.rank then return false
    else
      wrap (fieldBefore p) (operation op p r)
      return true

omit [Alphabet] in
theorem expressionRule_eq (min : Precedence) (r : Restrictions) :
    expressionRule min r = (do call .unary; loop (operatorStep min r)) := rfl

/-- A step stops before an operator that is too loose, and takes any other. -/
theorem operatorStep_cases (E : Setting) (min : Precedence) (r : Restrictions) (s : State) :
    (E.val (operatorStep min r) s = false ∧
      E.after (operatorStep min r) s = s.inMode .operator ∧ s.StopsBelow r min.rank) ∨
    ∃ op p, infixOperator? r (State.glimpse (s.place.next .operator).1) = some (op, p) ∧
      min.rank ≤ p.rank ∧ E.val (operatorStep min r) s = true ∧
      E.after (operatorStep min r) s =
        E.after (wrap (fieldBefore p) (operation op p r)) (s.inMode .operator) := by
  simp only [operatorStep, val_bind, after_bind, val_look, after_look]
  cases hop : infixOperator? r (State.glimpse (s.place.next .operator).1) with
  | none =>
    refine .inl ⟨rfl, rfl, fun op p h => ?_⟩
    rw [hop] at h
    cases h
  | some found =>
    obtain ⟨op, p⟩ := found
    by_cases hlow : p.rank < min.rank
    · refine .inl ⟨by simp [hlow], by simp [hlow], fun op' q h => ?_⟩
      rw [hop] at h
      cases h
      exact hlow
    · exact .inr ⟨op, p, rfl, Nat.le_of_not_lt hlow, by simp [hlow], by simp [hlow]⟩

/-- **Expressions are grouped**, and end where no operator follows that they were asked to take. -/
theorem groups_expressionRule (hE : E.Groups) (min : Precedence) (r : Restrictions)
    (hs : s.Grouped) (hclean : (E.after (expressionRule min r) s).Clean) :
    (E.after (expressionRule min r) s).Grouped ∧
      (E.after (expressionRule min r) s).EndsAtLeast min.rank ∧
      (E.after (expressionRule min r) s).StopsBelow r min.rank := by
  have hsafe : E.Safe (loop (operatorStep min r)) (E.apply .unary s) :=
    (safe_expressionRule (E := E) (s := s) min r).2
  -- the repetition ends by itself, so its last step says why
  obtain ⟨t, ht, hstop, hafter⟩ := hsafe.exists_exit (fun t => t.Clean → Between min r t)
      (between_unary hE min r hs) <| by
    intro t ht hon htclean
    have hbetween := ht ((E.leads_after _ t).clean htclean)
    rcases operatorStep_cases E min r t with ⟨hoff, -⟩ | ⟨op, p, hop, hmin, -, hstep⟩
    · rw [hoff] at hon
      cases hon
    · rw [hstep] at htclean ⊢
      exact hbetween.infix hE hop hmin htclean
  rw [expressionRule_eq, after_bind, after_call, hafter] at hclean ⊢
  rcases operatorStep_cases E min r t with ⟨-, hstep, hstops⟩ | ⟨op, p, -, -, hon, -⟩
  · rw [hstep] at hclean ⊢
    obtain ⟨hgrouped, hends, -⟩ := ht hclean
    exact ⟨hgrouped, hends, hstops⟩
  · rw [hon] at hstop
    cases hstop

/-! ## All rules -/

/-- **The rules group what they make**, if those they call do. -/
theorem groups_rule (hE : E.Groups) (rule : Rule) (hs : s.Grouped)
    (hclean : (E.after (Grammar.rule rule) s).Clean) :
    (E.after (Grammar.rule rule) s).Grouped ∧
      (E.after (Grammar.rule rule) s).EndsAtLeast rule.floor ∧
      rule.Stops (E.after (Grammar.rule rule) s) := by
  cases rule with
  | statement =>
    exact ⟨grouped_after hE plain_statementRule hs hclean,
      fun c _ _ => c.face.atLeast_zero, trivial⟩
  | expression min r => exact groups_expressionRule hE min r hs hclean
  | unary =>
    obtain ⟨hgrouped, hends⟩ := endsWhole_unaryRule hE hs hclean
    exact ⟨hgrouped, hends, trivial⟩
  | construction =>
    obtain ⟨hgrouped, hends⟩ := endsWhole_constructionRule hE hs hclean
    exact ⟨hgrouped, hends, trivial⟩
  | type => exact ⟨grouped_typeRule hE hs hclean, fun c _ _ => c.face.atLeast_zero, trivial⟩
  | element =>
    have htops : elementRule.Tops := by simp [elementRule, Kind.isInfix]
    obtain ⟨hgrouped, hends⟩ := endsWhole_of_tops hE plain_elementRule htops hs hclean
    exact ⟨hgrouped, hends, trivial⟩

/-- A rule that is cut off says so. -/
theorem not_clean_reject (s : State) : ¬(E.after (reject .nestingTooDeep) s).Clean := by
  have hreport (t : State) : ¬(t.report .nestingTooDeep).Clean := by
    intro hclean
    have ha : t.aborted = none := (State.report_aborted t _).symm.trans hclean.1
    have hmem : ⟨.syntactic .nestingTooDeep, t.token.span⟩ ∈
        (t.report .nestingTooDeep).reports := by
      simp [State.report, ha]
    exact hclean.2 _ hmem rfl
  intro hclean
  rw [reject, after_bind, after_ite] at hclean
  split at hclean
  · exact hreport _ ((E.leads_after _ _).clean hclean)
  · exact hreport _ ((E.leads_after _ _).clean hclean)

theorem groups_atDepth (limits : Limits) (depth : Nat) : (atDepth limits depth).Groups := by
  induction depth with
  | zero =>
    intro rule s _ hclean
    change (State.apply limits 0 rule s).Clean at hclean
    rw [apply_zero] at hclean
    exact absurd hclean (not_clean_reject s)
  | succ depth ih =>
    intro rule s hs hclean
    rw [atDepth_succ] at hclean ⊢
    exact groups_rule ih rule hs hclean

end Setting

/-! ## Whole parses -/

/-- Behind a whole parse that is clean the root is grouped. -/
theorem State.grouped_run [Alphabet] {limits : Limits} {text : Text}
    (h : (State.run limits text).Clean) :
    (State.run limits text).Grouped :=
  Setting.grouped_after (E := .atDepth limits limits.maxDepth) (s := .start text)
    (Setting.groups_atDepth limits _) plain_sourceFile (fun _ hc => (by cases hc)) h

/-- **Every node of every tree is grouped by precedence**, also where the text has errors, unless
something in it nests too deeply.  The operands of an operator bind as tightly as its tier asks on
either side, and what an operator in front, an access, a call or an update is applied to is not made
by an operator between operands. -/
theorem grouping_of_parseWithin [Alphabet] {limits : Limits} {text : Text} {p : Parse}
    (h : parseWithin limits text = .ok p)
    (hdeep : ∀ d ∈ p.diagnostics, d.cause ≠ .syntactic .nestingTooDeep) :
    ∀ n ∈ p.tree.root.descendants, Grouping n.kind (Item.faces n.children) := by
  obtain ⟨modes, kids, last, hout, -, hkind, -, hchildren, hreports⟩ := exists_outcome h
  have hclean : (State.run limits text).Clean := by
    refine ⟨aborted_of_parseWithin h, fun d hd => hdeep d ?_⟩
    rw [hreports]
    exact List.mem_reverse.2 hd
  have hroot := State.grouped_run hclean (.node .sourceFile none
    (kids ++ [.token .eof none last.leading last.text last.trailing])) (by simp [hout.children])
  rw [Shape.Grouped] at hroot
  intro n hn
  rw [Tree.Node.descendants, List.mem_cons] at hn
  rcases hn with rfl | hn
  · rw [hkind]
    exact .of_isPlain (by decide) _
  · rw [hchildren] at hn
    exact Tree.Node.grouping_of_mem_nodesFrom hroot.2 hn

/-- Two tiers, with the tighter operator behind the looser one. -/
theorem grouping_of_parseWithin_sum : ∃ p, parseWithin {} "a + b * c;".toList = .ok p ∧
    ∀ n ∈ p.tree.root.descendants, Grouping n.kind (Item.faces n.children) := by
  obtain ⟨p, hp, hreports⟩ := exists_parseWithin (Limits.endless_maxDepth _) "a + b * c;".toList
  have hnone : (State.run {} "a + b * c;".toList).reports = [] := by decide +kernel
  refine ⟨p, hp, grouping_of_parseWithin hp fun d hd => ?_⟩
  rw [hreports, hnone] at hd
  cases hd

end ActionScript
