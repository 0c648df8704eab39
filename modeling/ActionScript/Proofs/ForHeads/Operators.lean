import ActionScript.Proofs.Avoiding

/-!
# Where `in` is no operator

In the head of a `for` the word `in` belongs to the loop.  The restriction is handed on to the
operands, but not into brackets and not to what stands between `?` and `:`, where `in` is an
operator again.

* `Shape.LeavesIn`: no operator `in` stands in a shape but inside of brackets, or in an inner slot.
* `Setting.LeavesIn`: a parser makes only such shapes, if the restricted rules do.
* `Setting.leavesIn_after`, `Setting.restrains_atDepth`: **the restricted rules leave `in` to the
  loop**, at every depth.
-/

set_option autoImplicit false

namespace ActionScript

open ActionScript.Parser ActionScript.Grammar

/-! ## Shapes -/

namespace Kind

/-- What has brackets around it, or holds all of its expressions in brackets. -/
def brackets : List Kind :=
  [.parenExpr, .arrayLiteral, .objectLiteral, .vectorLiteral, .argList, .functionExpr, .xmlElement]

/-- The slot of a node that has two tokens of the node around it, as brackets are. -/
def innerSlot? : Kind → Option Field
  | .subscriptExpr => some .index
  | .filterExpr => some .condition
  | .ternaryExpr => some .consequence
  | _ => none

end Kind

namespace Shape

/-- The shape is in the inner slot of a node of the kind. -/
def IsInner (kind : Kind) (c : Shape) : Prop := ∃ f ∈ kind.innerSlot?, c.slot? = some f

mutual

/-- The shape leaves `in` to the loop: no such operator stands in it, but for what is in brackets or
in an inner slot. -/
def LeavesIn : Shape → Prop
  | .token kind .. => kind ≠ .inKw
  | .node kind _ kids => kind ∈ Kind.brackets ∨ LeaveIn kind kids

/-- The children of a node of the kind leave `in` to the loop. -/
def LeaveIn (kind : Kind) : List Shape → Prop
  | [] => True
  | c :: cs => (c.LeavesIn ∨ c.IsInner kind) ∧ LeaveIn kind cs

end

variable {kind : Kind} {field : Option Field} {kids : List Shape}

theorem leavesIn_token {leading trailing : List Trivia} {text : Text} :
    (token kind field leading text trailing).LeavesIn ↔ kind ≠ .inKw := by
  rw [LeavesIn]

theorem leavesIn_node : (node kind field kids).LeavesIn ↔
    kind ∈ Kind.brackets ∨ ∀ c ∈ kids, c.LeavesIn ∨ c.IsInner kind := by
  have hkids : LeaveIn kind kids ↔ ∀ c ∈ kids, c.LeavesIn ∨ c.IsInner kind := by
    induction kids with
    | nil => simp [LeaveIn]
    | cons c cs ih => simp [LeaveIn, ih]
  rw [LeavesIn, hkids]

theorem leavesIn_node_of_forall (h : ∀ c ∈ kids, c.LeavesIn) : (node kind field kids).LeavesIn :=
  leavesIn_node.2 (.inr fun c hc => .inl (h c hc))

theorem LeavesIn.withField {s : Shape} (h : s.LeavesIn) (f : Field) : (s.withField f).LeavesIn := by
  cases s with
  | token => exact leavesIn_token.2 (leavesIn_token.1 h)
  | node => exact leavesIn_node.2 (leavesIn_node.1 h)

end Shape

/-! ## States -/

namespace State

/-- All children of the open node but the first `n` leave `in` to the loop. -/
def LeavesIn (n : Nat) (s : State) : Prop :=
  ∃ top base, s.children = top ++ base ∧ base.length = n ∧ ∀ c ∈ top, c.LeavesIn

variable {n : Nat} {s t : State}

/-- No token is read as a keyword of its own accord. -/
theorem next_ne_inKw [Alphabet] : (s.place.next s.mode).1.kind ≠ .inKw := fun hkind => by
  have hword : (s.place.next s.mode).1.kind.isKeyword = false := Place.next_not_keyword
  rw [hkind] at hword
  cases hword

theorem leavesIn_length (s : State) : s.LeavesIn s.children.length :=
  ⟨[], s.children, rfl, rfl, fun _ hc => absurd hc List.not_mem_nil⟩

theorem leavesIn_zero : s.LeavesIn 0 ↔ ∀ c ∈ s.children, c.LeavesIn := by
  constructor
  · rintro ⟨top, base, hs, hbase, htop⟩
    rwa [hs, List.length_eq_zero_iff.1 hbase, List.append_nil]
  · exact fun h => ⟨s.children, [], by rw [List.append_nil], rfl, h⟩

theorem leavesIn_enter_nil (s : State) (limits : Limits) : (s.enter limits []).LeavesIn 0 :=
  leavesIn_length _

theorem LeavesIn.of_children (h : s.LeavesIn n) (ht : t.children = s.children) : t.LeavesIn n := by
  rwa [LeavesIn, ht]

/-- One more child is gathered. -/
theorem LeavesIn.push {c : Shape} (h : s.LeavesIn n) (ht : t.children = c :: s.children)
    (hc : c.LeavesIn) : t.LeavesIn n := by
  obtain ⟨top, base, hs, hbase, htop⟩ := h
  exact ⟨c :: top, base, by rw [ht, hs, List.cons_append], hbase, List.forall_mem_cons.2 ⟨hc, htop⟩⟩

theorem LeavesIn.takeAs [Alphabet] (h : s.LeavesIn n) (limits : Limits) {kind : Kind}
    (hkind : kind ≠ .inKw)
    (field : Option Field) : (s.takeAs limits kind field).LeavesIn n :=
  h.push (takeAs_children _ _ _ _) (Shape.leavesIn_token.2 hkind)

/-- A label changes nothing inside the last child, whichever that is. -/
theorem LeavesIn.labelLast (h : s.LeavesIn n) (field : Field) : (s.labelLast field).LeavesIn n := by
  obtain ⟨top, base, hs, hbase, htop⟩ := h
  cases top with
  | cons c top =>
    obtain ⟨hc, htop⟩ := List.forall_mem_cons.1 htop
    exact ⟨c.withField field :: top, base, labelLast_children _ _ hs, hbase,
      List.forall_mem_cons.2 ⟨hc.withField field, htop⟩⟩
  | nil =>
    cases base with
    | nil => exact ⟨[], [], by rw [State.labelLast, hs]; exact hs, hbase, htop⟩
    | cons c base => exact ⟨[], c.withField field :: base, labelLast_children _ _ hs, hbase, htop⟩

/-- The last child becomes part of a new node in its place. -/
theorem LeavesIn.wrapped (h : s.LeavesIn n) {c : Shape} (ht : t.children = c :: s.children.drop 1)
    (hc : (∀ d ∈ s.children.take 1, d.LeavesIn) → c.LeavesIn) : t.LeavesIn n := by
  obtain ⟨top, base, hs, hbase, htop⟩ := h
  cases top with
  | cons d top =>
    obtain ⟨hd, htop⟩ := List.forall_mem_cons.1 htop
    refine ⟨c :: top, base, by simp [ht, hs], hbase, List.forall_mem_cons.2 ⟨hc ?_, htop⟩⟩
    simpa [hs] using hd
  | nil =>
    cases base with
    | nil =>
      refine ⟨[c], [], by simp [ht, hs], hbase, List.forall_mem_singleton.2 (hc ?_)⟩
      simp [hs]
    | cons d base => exact ⟨[], c :: base, by simp [ht, hs], hbase, htop⟩

end State

/-! ## Parsers -/

/-- The rules that leave `in` to a loop around them: expressions that are told so, and all that
binds more tightly than operators between operands. -/
def Rule.LeavesIn : Rule → Prop
  | .statement => False
  | .expression _ r => r.noIn = true
  | _ => True

namespace Setting

variable {α β : Type}

variable [Alphabet]

/-- A node in which the body goes on leaves `in` to the loop if what is in it already does. -/
def Shelters (E : Setting) (body : Parser Kind) : Prop :=
  ∀ s : State, (∀ c ∈ s.children, c.LeavesIn) →
    (Shape.node (E.val body s) none (E.after body s).children.reverse).LeavesIn

/-- What the parser adds to the open node leaves `in` to the loop, if the rules so restricted do. -/
def LeavesIn (E : Setting) : {α : Type} → Parser α → Prop
  | _, .andThen first next => LeavesIn E first ∧ ∀ s, LeavesIn E (next (E.val first s))
  | _, .takeWord keyword _ => keyword ≠ .inKw
  | _, .node body => (body.Yields fun made => made.1 ∈ Kind.brackets) ∨ LeavesIn E body
  | _, .wrap _ body => E.Shelters body
  | _, .loop body => LeavesIn E body
  | _, .call rule => rule.LeavesIn
  | _, _ => True

/-- The restricted rules leave `in` to the loop. -/
def Restrains (E : Setting) : Prop :=
  ∀ (rule : Rule), rule.LeavesIn → ∀ (n : Nat) (s : State), s.LeavesIn n →
    (E.apply rule s).LeavesIn n

variable {E : Setting} {n : Nat} {s : State}

/-- A node leaves `in` to the loop if it is a pair of brackets, or if its body does. -/
theorem leavesIn_after_node {body : Parser (Kind × α)} (hs : s.LeavesIn n)
    (hbody : (E.val body (s.enter E.limits [])).1 ∈ Kind.brackets ∨
      (E.after body (s.enter E.limits [])).LeavesIn 0) : (E.after (.node body) s).LeavesIn n := by
  refine hs.push (State.close_children _ _ _)
    (Shape.leavesIn_node.2 (hbody.imp_right fun h c hc => ?_))
  exact .inl (State.leavesIn_zero.1 h c (List.mem_reverse.1 hc))

/-- **What a restricted parser adds leaves `in` to the loop**, if that holds of the restricted
rules. -/
theorem leavesIn_after (hE : E.Restrains) {p : Parser α} (hp : E.LeavesIn p) (hs : s.LeavesIn n) :
    (E.after p s).LeavesIn n := by
  induction p generalizing s n with
  | done value => exact hs
  | andThen first next ihFirst ihNext => exact ihNext _ (hp.2 _) (ihFirst hp.1 hs)
  | look mode => exact hs.of_children rfl
  | ahead distance => exact hs.of_children rfl
  | take field =>
    exact hs.takeAs _ State.next_ne_inKw _
  | takeWord keyword field => exact hs.takeAs _ hp _
  | report error => exact hs.of_children (State.report_children _ _)
  | node body ih =>
    exact leavesIn_after_node hs
      (hp.imp (fun hkind => hkind.val E _) fun hbody => ih hbody (s.leavesIn_enter_nil E.limits))
  | wrap field body =>
    rw [after_wrap]
    refine hs.wrapped (State.close_children _ _ _) fun hlast => hp _ fun c hc => ?_
    obtain ⟨d, hd, rfl⟩ := List.mem_map.1 hc
    exact (hlast d hd).withField field
  | label field => exact hs.labelLast field
  | loop body ih =>
    exact after_loop_induct (State.LeavesIn n) hs (fun _ _ h => h.of_children rfl) fun _ => ih hp
  | call rule => exact hE rule hp n s hs
  | require mode kind => exact hs.of_children rfl

omit [Alphabet] in
/-- A node that has just been made leaves `in` to the loop. -/
theorem exists_made {t : State} (hmakes : s.Makes t) (ht : t.LeavesIn s.children.length) :
    ∃ kind kids, t.children = .node kind none kids :: s.children ∧
      (Shape.node kind none kids).LeavesIn := by
  obtain ⟨kind, kids, hmakes⟩ := hmakes
  obtain ⟨top, base, hchildren, hbase, htop⟩ := ht
  refine ⟨kind, kids, hmakes, ?_⟩
  rw [hmakes] at hchildren
  cases top with
  | nil =>
    rw [List.nil_append] at hchildren
    rw [← hchildren] at hbase
    simp at hbase
  | cons c top =>
    rw [(List.cons.inj hchildren).1]
    exact htop c List.mem_cons_self

/-- What a restricted rule makes leaves `in` to the loop. -/
theorem Restrains.exists_node (hE : E.Restrains) {rule : Rule} (hrule : rule.LeavesIn) (s : State) :
    ∃ kind kids, (E.apply rule s).children = .node kind none kids :: s.children ∧
      (Shape.node kind none kids).LeavesIn :=
    exists_made (E.makes rule s) (hE rule hrule _ s s.leavesIn_length)

/-- A restricted body shelters what it adds. -/
theorem shelters_of_leavesIn (hE : E.Restrains) {body : Parser Kind} (h : E.LeavesIn body) :
    E.Shelters body := fun _ hs => Shape.leavesIn_node_of_forall fun c hc =>
  State.leavesIn_zero.1 (leavesIn_after hE h (State.leavesIn_zero.2 hs)) c (List.mem_reverse.1 hc)

/-! ## Instructions -/

section
variable {p : Parser α}

@[simp] theorem leavesIn_pure (a : α) : E.LeavesIn (pure a : Parser α) := trivial
@[simp] theorem leavesIn_bind {p : Parser β} {f : β → Parser α} :
    E.LeavesIn (p >>= f) ↔ E.LeavesIn p ∧ ∀ s, E.LeavesIn (f (E.val p s)) := Iff.rfl
@[simp] theorem leavesIn_look (mode : Mode) : E.LeavesIn (look mode) := trivial
@[simp] theorem leavesIn_ahead (distance : Nat) : E.LeavesIn (ahead distance) := trivial
@[simp] theorem leavesIn_take (field : Option Field) : E.LeavesIn (take field) := trivial
@[simp] theorem leavesIn_takeWord {keyword : Kind} {field : Option Field} :
    E.LeavesIn (takeWord keyword field) ↔ keyword ≠ .inKw := Iff.rfl
@[simp] theorem leavesIn_report (error : SyntaxError) : E.LeavesIn (report error) := trivial
@[simp] theorem leavesIn_label (field : Field) : E.LeavesIn (label field) := trivial
@[simp] theorem leavesIn_loop {body : Parser Bool} :
    E.LeavesIn (loop body) ↔ E.LeavesIn body := Iff.rfl
@[simp] theorem leavesIn_call {rule : Rule} : E.LeavesIn (call rule) ↔ rule.LeavesIn := Iff.rfl
@[simp] theorem leavesIn_require (mode : Mode) (kind : Kind) :
    E.LeavesIn (require mode kind) := trivial
@[simp] theorem leavesIn_wrap {field : Field} {body : Parser Kind} :
    E.LeavesIn (wrap field body) ↔ E.Shelters body := Iff.rfl

@[simp] theorem leavesIn_ite {c : Prop} [Decidable c] {p q : Parser α} :
    E.LeavesIn (if c then p else q) ↔ (c → E.LeavesIn p) ∧ (¬c → E.LeavesIn q) := by
  split <;> simp [*]

@[simp] theorem leavesIn_nodeOf {kind : Kind} {body : Parser Unit} :
    E.LeavesIn (nodeOf kind body) ↔ kind ∈ Kind.brackets ∨ E.LeavesIn body := by
  change (Parser.Yields _ _ ∨ E.LeavesIn (body >>= fun _ => pure (kind, ()))) ↔ _
  simp

@[simp] theorem leavesIn_when {c : Bool} {p : Parser Unit} :
    E.LeavesIn (when c p) ↔ (c = true → E.LeavesIn p) := by
  simp [when]

theorem leavesIn_of_onlyLooks (h : p.OnlyLooks) : E.LeavesIn p := by
  induction p with
  | andThen first next ihFirst ihNext => exact ⟨ihFirst h.1, fun _ => ihNext _ (h.2 _)⟩
  | done value => trivial
  | ahead distance => trivial
  | _ => exact h.elim

@[simp] theorem leavesIn_peek : E.LeavesIn peek := by simp [peek]
@[simp] theorem leavesIn_sees (kind : Kind) : E.LeavesIn (sees kind) := by simp [sees]
@[simp] theorem leavesIn_seesIn (mode : Mode) (kind : Kind) : E.LeavesIn (seesIn mode kind) := by
  simp [seesIn]
@[simp] theorem leavesIn_seesWord (word : String) : E.LeavesIn (seesWord word) := by simp [seesWord]
@[simp] theorem leavesIn_leaf (kind : Kind) : E.LeavesIn (leaf kind) := by simp [leaf]
@[simp] theorem leavesIn_wordLeaf {keyword kind : Kind} (h : keyword ≠ .inKw) :
    E.LeavesIn (wordLeaf keyword kind) := by
  simp [wordLeaf, h]
@[simp] theorem leavesIn_eat (kind : Kind) : E.LeavesIn (eat kind) := by simp [eat]
@[simp] theorem leavesIn_missing (error : SyntaxError) : E.LeavesIn (missing error) := by
  simp [missing]
@[simp] theorem leavesIn_reject (error : SyntaxError) : E.LeavesIn (reject error) := by
  simp [reject]
@[simp] theorem leavesIn_rejectUnless (stops : KindSet) (error : SyntaxError) :
    E.LeavesIn (rejectUnless stops error) := by
  simp [rejectUnless]
@[simp] theorem leavesIn_expectIn (mode : Mode) (kind : Kind) :
    E.LeavesIn (expectIn mode kind) := by
  simp [expectIn]
@[simp] theorem leavesIn_expect (kind : Kind) : E.LeavesIn (expect kind) := by simp [expect]
@[simp] theorem leavesIn_callIn {field : Field} {rule : Rule} :
    E.LeavesIn (callIn field rule) ↔ rule.LeavesIn := by
  simp [callIn]

end

/-! ## Types, names and declarators -/

@[simp] theorem leavesIn_name (field : Field) (stops : List Kind) :
    E.LeavesIn (name field stops) := by
  simp [name]

@[simp] theorem leavesIn_typeIn (field : Field) : E.LeavesIn (typeIn field) := by
  simp [typeIn, Rule.LeavesIn]

@[simp] theorem leavesIn_typeAscription? (field : Field) : E.LeavesIn (typeAscription? field) := by
  simp [typeAscription?, typeAscription]

@[simp] theorem leavesIn_typeArguments : E.LeavesIn typeArguments := by
  simp [typeArguments]

@[simp] theorem leavesIn_typeName : E.LeavesIn typeName := by
  simp [typeName]

@[simp] theorem leavesIn_declarators {r : Restrictions} (h : r.noIn = true) :
    E.LeavesIn (declarators r) := by
  simp [declarators, Rule.LeavesIn, h]

theorem leavesIn_variableHead : E.LeavesIn variableHead := by
  refine .inr ?_
  simp only [leavesIn_bind, leavesIn_seesWord, leavesIn_takeWord, leavesIn_declarators,
    leavesIn_pure, true_and, and_true, implies_true]
  intro isConst
  split <;> decide

/-! ## Expressions -/

@[simp] theorem leavesIn_arguments : E.LeavesIn arguments := by
  simp +decide [arguments]

@[simp] theorem leavesIn_wordOperand (g : Glimpse) : E.LeavesIn (wordOperand g) := by
  unfold wordOperand
  split <;> simp +decide [functionExpression]

@[simp] theorem leavesIn_operand : E.LeavesIn operand := by
  refine ⟨leavesIn_look _, fun t => ?_⟩
  dsimp only [val_look]
  split
  case h_8 =>
    refine ⟨leavesIn_of_onlyLooks (onlyLooks_closesVector 32 1 1), fun found => ?_⟩
    simp +decide [Rule.LeavesIn]
  all_goals simp +decide [objectLiteral]

@[simp] theorem leavesIn_propertyName : E.LeavesIn propertyName := by
  refine ⟨leavesIn_peek, fun k => ⟨?_, fun _ => leavesIn_label _⟩⟩
  split <;> simp

/-! ## Inner slots -/

/-- What stands in an inner slot need not leave `in` to the loop. -/
def Inside (kind : Kind) (c : Shape) : Prop := c.LeavesIn ∨ c.IsInner kind

theorem inside_take (kind : Kind) (field : Option Field) :
    s.Adds (Inside kind) (E.after (take field) s) := by
  exact .one (State.takeAs_children _ _ _ _) (.inl (Shape.leavesIn_token.2 State.next_ne_inKw))

theorem inside_expect (kind closing : Kind) :
    s.Adds (Inside kind) (E.after (expect closing) s) := by
  simp only [expect, expectIn, after_bind, after_pure, val_seesIn, after_seesIn, after_ite]
  split
  · exact inside_take (s := s.inMode .operator) kind none
  · refine .one (c := .node .error none []) ?_ (.inl (Shape.leavesIn_node_of_forall (by simp)))
    simp [missing]

/-- An inner slot between two tokens. -/
theorem inside_slot {kind : Kind} {field : Field} (hfield : kind.innerSlot? = some field)
    (rule : Rule) (closing : Kind) : s.Adds (Inside kind)
      (E.after (expect closing) (E.after (callIn field rule) (E.after (take none) s))) := by
  obtain ⟨made, kids, hmakes⟩ := E.makes rule (E.after (take none) s)
  have hslot : (E.after (take none) s).Adds (Inside kind)
      (E.after (callIn field rule) (E.after (take none) s)) :=
    .one (State.labelLast_children _ _ hmakes) (.inr ⟨field, hfield, rfl⟩)
  exact (inside_take kind none).trans (hslot.trans (inside_expect kind closing))

omit [Alphabet] in
/-- A node with an inner slot leaves `in` to the loop if the children around it do. -/
theorem leavesIn_of_adds {kind : Kind} {t : State} (h : s.Adds (Inside kind) t)
    (hs : ∀ c ∈ s.children, c.LeavesIn) : (Shape.node kind none t.children.reverse).LeavesIn := by
  obtain ⟨more, hmore, hinside⟩ := h
  refine Shape.leavesIn_node.2 (.inr fun c hc => ?_)
  rw [List.mem_reverse, hmore, List.mem_append] at hc
  exact hc.elim (hinside c) fun hc => .inl (hs c hc)

/-- `a[i]`: any operator may stand in `i`. -/
theorem shelters_subscript : E.Shelters do
    take none
    expression .index
    expect .rBrack
    return .subscriptExpr := by
  intro s hs
  have hadds : s.Adds (Inside .subscriptExpr) _ :=
    inside_slot (E := E) rfl (.expression .comma {}) .rBrack
  exact leavesIn_of_adds hadds hs

omit [Alphabet] in
/-- Where `in` is no operator, it is not taken for one. -/
theorem infixOperator?_ne_inKw {r : Restrictions} (hr : r.noIn = true) {t : Token}
    (ht : t.kind.isKeyword = false) {op : Kind} {p : Precedence}
    (h : infixOperator? r (State.glimpse t) = some (op, p)) : op ≠ .inKw := by
  simp only [infixOperator?, glimpse_kind, glimpse_text, hr, if_true, Option.bind_eq_some_iff,
    Option.map_eq_some_iff, Prod.mk.injEq] at h
  obtain ⟨k, hk, q, -, rfl, -⟩ := h
  rintro rfl
  split at hk
  · split at hk <;> cases hk
  · split at hk <;> cases hk
  · rw [Option.some.inj hk] at ht
    cases ht

section
variable (hE : E.Restrains)
include hE

/-- An access by name or by a condition. -/
theorem shelters_access : E.Shelters do
    take none
    if ← sees .lParen then
      take none
      expression .condition
      expect .rParen
      return .filterExpr
    else
      propertyName
      return .memberExpr := by
  intro s hs
  simp only [after_bind, val_bind, after_ite, val_ite, after_pure, val_pure]
  split
  · exact leavesIn_of_adds ((inside_take .filterExpr none).trans
      (inside_slot (s := (E.after (take none) s).inMode .operator) rfl (.expression .comma {})
        .rParen)) hs
  · have hbody : E.LeavesIn (do take none; propertyName; return Kind.memberExpr) := by simp
    exact shelters_of_leavesIn hE hbody s hs

theorem leavesIn_link (calls : Bool) : E.LeavesIn (link calls) := by
  refine ⟨leavesIn_look _, fun t => ?_⟩
  dsimp only [val_look]
  split
  case h_1 => exact ⟨shelters_access hE, fun _ => trivial⟩
  case h_5 => exact ⟨shelters_subscript, fun _ => trivial⟩
  all_goals simp [shelters_of_leavesIn hE]

theorem leavesIn_chain (calls : Bool) : E.LeavesIn (chain calls) := leavesIn_link hE calls

/-- An operator and what is behind it: only between `?` and `:` any operator may stand. -/
theorem shelters_operation {op : Kind} (hop : op ≠ .inKw) (p : Precedence) {r : Restrictions}
    (hr : r.noIn = true) : E.Shelters (operation op p r) := by
  have hoperand : r.operand.noIn = true := hr
  unfold operation
  split
  case h_3 =>
    intro s hs
    have hadds : s.Adds (Inside .ternaryExpr) _ := inside_slot (E := E) rfl
      (.expression .assignment { noSequence := true }) .colon
    simp only [after_bind, val_bind, after_pure, val_pure]
    generalize E.after (expect .colon) _ = t at hadds ⊢
    have hrule : (Rule.expression .assignment r.operand).LeavesIn := hoperand
    obtain ⟨kind, kids, hmakes, hlast⟩ := hE.exists_node hrule t
    have hright : t.Adds (Inside .ternaryExpr) _ :=
      .one (State.labelLast_children _ .alternative hmakes) (.inl (hlast.withField _))
    exact leavesIn_of_adds (hadds.trans hright) hs
  all_goals
    exact shelters_of_leavesIn hE (by simp [Rule.LeavesIn, hoperand, takeOperator, hop])

theorem leavesIn_expressionRule (min : Precedence) {r : Restrictions} (hr : r.noIn = true) :
    E.LeavesIn (expressionRule min r) := by
  refine ⟨trivial, fun _ => ⟨leavesIn_look _, fun t => ?_⟩⟩
  dsimp only [val_look]
  split
  · trivial
  · rename_i op p hop
    rw [leavesIn_ite]
    refine ⟨fun _ => trivial, fun _ => ⟨shelters_operation hE ?_ p hr, fun _ => trivial⟩⟩
    exact infixOperator?_ne_inKw hr Place.next_not_keyword hop

theorem leavesIn_typeRule : E.LeavesIn typeRule := by
  refine ⟨leavesIn_look _, fun t => ?_⟩
  dsimp only [val_look]
  split <;> simp +decide [shelters_of_leavesIn hE]

/-- `new`: a vector literal has brackets, and all else binds more tightly than operators. -/
theorem restrains_constructionRule (hs : s.LeavesIn n) :
    (E.after constructionRule s).LeavesIn n := by
  refine leavesIn_after_node hs ?_
  have hword : ((s.enter E.limits []).takeAs E.limits .newKw none).LeavesIn 0 :=
    (s.leavesIn_enter_nil E.limits).takeAs E.limits (by decide) none
  generalize s.enter E.limits [] = u at hword ⊢
  rw [val_bind, after_bind, val_bind, after_bind, after_takeWord, val_look, after_look]
  generalize u.takeAs E.limits .newKw none = t at hword ⊢
  split
  · exact .inl (by simp +decide)
  · exact .inr
      (leavesIn_after hE (by simp [leavesIn_chain hE, Rule.LeavesIn]) (hword.of_children rfl))

theorem leavesIn_unaryRule : E.LeavesIn unaryRule := by
  refine ⟨leavesIn_look _, fun t => ?_⟩
  dsimp only [val_look]
  split
  · simp [chained, leavesIn_chain hE, Rule.LeavesIn]
  · rename_i op hop
    have hne : op ≠ .inKw := by
      rintro rfl
      cases leadingOperator?_isOperator hop
    simp [takeOperator, hne, Rule.LeavesIn]

end

/-! ## At every depth -/

/-- **The restricted rules leave `in` to the loop**, at every depth. -/
theorem restrains_atDepth (limits : Limits) (depth : Nat) : (atDepth limits depth).Restrains := by
  induction depth with
  | zero =>
    intro rule _ n s hs
    change (State.apply limits 0 rule s).LeavesIn n
    rw [apply_zero]
    have hgiven : (givingUp limits).Restrains := fun _ _ _ _ h =>
      h.push rfl (Shape.leavesIn_node_of_forall fun _ hc => absurd hc List.not_mem_nil)
    exact leavesIn_after hgiven (leavesIn_reject _) hs
  | succ depth ih =>
    intro rule hrule n s hs
    rw [atDepth_succ]
    cases rule with
    | statement => exact hrule.elim
    | expression min r => exact leavesIn_after ih (leavesIn_expressionRule ih min hrule) hs
    | unary => exact leavesIn_after ih (leavesIn_unaryRule ih) hs
    | construction => exact restrains_constructionRule ih hs
    | type => exact leavesIn_after ih (leavesIn_typeRule ih) hs
    | element => exact leavesIn_after ih (leavesIn_nodeOf.2 (.inl (by decide))) hs

end Setting

end ActionScript
