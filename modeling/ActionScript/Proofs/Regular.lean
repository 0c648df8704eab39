import ActionScript.Proofs.Routines
import ActionScript.Proofs.Slots

/-!
# Nodes with something in them

A routine that makes a node puts something into it; only the error node for a missing piece stays
empty.  What is required of the children of a node beyond that concerns few kinds, those of elements
and vector literals, so for all other routines it is enough to know that their nodes are of other
kinds.

* `Shape.Every`: a condition on the children of every node of a shape.
* `Parser.Fills`: a parser adds a child, or its value is as said.  `Parser.Regular`: the nodes that
  a parser makes by itself are of unmarked kinds, and none but an error node is empty.
* `Setting.Upholds`, `Setting.every_after`: **regular parsers keep such a condition**, if the rules
  do.
-/

set_option autoImplicit false

namespace ActionScript

/-! ## Shapes -/

namespace Shape

variable {P : Kind → List Shape → Prop}

mutual

/-- What is said of a node's kind and children holds of every node of a shape. -/
def Every (P : Kind → List Shape → Prop) : Shape → Prop
  | .token .. => True
  | .node kind _ children => P kind children ∧ EveryIn P children

/-- What is said of a node's kind and children holds of every node of several shapes. -/
def EveryIn (P : Kind → List Shape → Prop) : List Shape → Prop
  | [] => True
  | s :: ss => s.Every P ∧ EveryIn P ss

end

theorem everyIn_iff {ss : List Shape} : EveryIn P ss ↔ ∀ s ∈ ss, s.Every P := by
  induction ss with
  | nil => simp [EveryIn]
  | cons s ss ih => simp [EveryIn, ih]

@[simp] theorem every_token (kind : Kind) (field : Option Field) (leading : List Trivia)
    (text : Text) (trailing : List Trivia) :
    (Shape.token kind field leading text trailing).Every P := by
  rw [Every]
  trivial

@[simp] theorem every_node {kind : Kind} {field : Option Field} {children : List Shape} :
    (Shape.node kind field children).Every P ↔ P kind children ∧ ∀ s ∈ children, s.Every P := by
  rw [Every, everyIn_iff]

/-- A slot changes nothing inside a shape. -/
@[simp] theorem every_withField {f : Field} {s : Shape} : (s.withField f).Every P ↔ s.Every P := by
  cases s <;> simp [withField]

end Shape

/-! ## Parsers -/

/-- Nodes of the kind are made by the routines for elements and vector literals alone. -/
def Kind.isMarked : Kind → Bool
  | .xmlElement | .xmlStartTag | .vectorLiteral => true
  | _ => false

@[simp] theorem Kind.isMarked_ite {c : Prop} [Decidable c] {k l : Kind} :
    (if c then k else l).isMarked = false ↔ (c → k.isMarked = false) ∧
    (¬c → l.isMarked = false) := by
  split <;> simp [*]

namespace Parser

variable {α β : Type}

/-- The parser adds a child to the open node, or its value is as `Q` says. -/
def Fills : {α : Type} → Parser α → (α → Prop) → Prop
  | _, .done value, Q => Q value
  | _, .andThen first next, Q => Fills first fun value => Fills (next value) Q
  | _, .look _, Q => ∀ g, Q g
  | _, .ahead _, Q => ∀ g, Q g
  | _, .report _, Q => Q ()
  | _, .wrap .., Q => Q ()
  | _, .label _, Q => Q ()
  | _, .loop body, Q => Fills body fun _ => Q ()
  | _, .require .., Q => Q ()
  | _, _, _ => True

/-- The nodes that the parser makes by itself are of unmarked kinds, and none but an error node is
empty; it applies no rule that makes others. -/
def Regular : {α : Type} → Parser α → Prop
  | _, .andThen first next => Regular first ∧ ∀ value, Regular (next value)
  | _, .node body => Regular body ∧ (body.Yields fun made => made.1.isMarked = false) ∧
      body.Fills fun made => made.1 = .error
  | _, .wrap _ body => Regular body ∧ (body.Yields fun kind => kind.isMarked = false) ∧
      body.Fills fun kind => kind = .error
  | _, .loop body => Regular body
  | _, .call rule => rule ≠ .element
  | _, _ => True

theorem Fills.of_forall {Q : α → Prop} (h : ∀ value, Q value) (p : Parser α) : p.Fills Q := by
  induction p with
  | done value => exact h value
  | andThen first next ihFirst ihNext => exact ihFirst fun value => ihNext value h
  | look mode => exact h
  | ahead distance => exact h
  | report error => exact h ()
  | wrap field body => exact h ()
  | label field => exact h ()
  | loop body ih => exact ih fun _ => h ()
  | require mode kind => exact h ()
  | _ => trivial

end Parser

/-! ## Runs -/

namespace State

/-- The condition holds of every node made so far. -/
def Every (P : Kind → List Shape → Prop) (s : State) : Prop := ∀ c ∈ s.children, c.Every P

/-- The parse has not been stopped; if `q` holds, nothing at all is wrong so far. -/
structure Tame (q : Prop) (s : State) : Prop where
  aborted : s.aborted = none
  quiet : q → s.Quiet

variable {P : Kind → List Shape → Prop} {q : Prop} {s t : State}

theorem Grows.tame (h : s.Grows t) (ht : t.Tame q) : s.Tame q :=
  ⟨h.leads.aborted ht.aborted, fun hq => h.quiet (ht.quiet hq)⟩

theorem Tame.of_close {outer : List Shape} {kind : Kind} (h : (t.close outer kind).Tame q) :
    t.Tame q :=
  ⟨h.aborted, fun hq => (h.quiet hq).of_close.2⟩

theorem Every.takeAs [Alphabet] (h : s.Every P) (limits : Limits) (kind : Kind)
    (field : Option Field) :
    (s.takeAs limits kind field).Every P := by
  intro c hc
  rw [takeAs_children, List.mem_cons] at hc
  rcases hc with rfl | hc
  · exact Shape.every_token _ _ _ _ _
  · exact h c hc

theorem Every.labelLast (h : s.Every P) (field : Field) : (s.labelLast field).Every P := by
  cases hs : s.children with
  | nil =>
    rw [State.labelLast, hs]
    exact h
  | cons c cs =>
    intro d hd
    rw [labelLast_children s field hs, List.mem_cons] at hd
    rcases hd with rfl | hd
    · exact Shape.every_withField.2 (h c (by simp [hs]))
    · exact h d (by simp [hs, hd])

theorem every_enter_nil (limits : Limits) : (s.enter limits []).Every P :=
  fun _ hc => absurd hc List.not_mem_nil

/-- The last child, put into a slot of a new node, is still as it was. -/
theorem Every.wrapped (h : s.Every P) (limits : Limits) (field : Field) :
    (s.enter limits ((s.children.take 1).map (Shape.withField field))).Every P := by
  intro c hc
  obtain ⟨d, hd, rfl⟩ := List.mem_map.1 hc
  exact Shape.every_withField.2 (h d (List.mem_of_mem_take hd))

/-- A node as the condition wants it, around children that are so. -/
theorem Every.close {outer : List Shape} {kind : Kind} (h : s.Every P)
    (houter : ∀ c ∈ outer, c.Every P) (hkind : P kind s.children.reverse) :
    (s.close outer kind).Every P := by
  intro c hc
  rw [close_children, List.mem_cons] at hc
  rcases hc with rfl | hc
  · exact Shape.every_node.2 ⟨hkind, fun d hd => h d (List.mem_reverse.1 hd)⟩
  · exact houter c hc

/-- There are at least as many children as before. -/
def Holds (s t : State) : Prop := s.children.length ≤ t.children.length

/-- A step that takes no children away goes on so. -/
theorem Holds.repeatWhile {step : State → Bool × State} (hstep : ∀ s : State, s.Holds (step s).2)
    (limit : Nat) (s : State) : s.Holds (repeatWhile step limit s) := by
  induction limit generalizing s with
  | zero => exact Nat.le_refl _
  | succ limit ih =>
    have hs := hstep s
    rw [State.repeatWhile]
    split
    · rename_i t ht
      rw [ht] at hs
      exact Nat.le_trans hs (ih (s.noteStall t))
    · rename_i t ht
      rwa [ht] at hs

end State

namespace Setting

variable [Alphabet] {E : Setting} {P : Kind → List Shape → Prop} {q : Prop} {s : State} {α β : Type}

/-- **No parser takes children away.** -/
theorem holds_after (p : Parser α) (s : State) : s.Holds (E.after p s) := by
  induction p generalizing s with
  | andThen first next ihFirst ihNext => exact Nat.le_trans (ihFirst s) (ihNext _ _)
  | take field => simp [State.Holds]
  | takeWord keyword field => simp [State.Holds]
  | report error => simp [State.Holds]
  | node body => simp [State.Holds]
  | wrap field body =>
    rw [State.Holds, after_wrap, State.close_children, List.length_cons, List.length_drop]
    omega
  | label field =>
    rw [State.Holds, after_label]
    cases hs : s.children with
    | nil => simp
    | cons c cs => simp [State.labelLast_children s field hs]
  | loop body ih => exact .repeatWhile ih _ s
  | call rule =>
    obtain ⟨kind, children, hmakes⟩ := E.makes rule s
    simp [State.Holds, hmakes]
  | _ => exact Nat.le_refl _

/-- **A parser that fills adds a child**, unless its value says otherwise. -/
theorem length_lt_after {p : Parser α} {Q : α → Prop} (h : p.Fills Q) :
    s.children.length < (E.after p s).children.length ∨ Q (E.val p s) := by
  induction p generalizing s with
  | done value => exact .inr h
  | andThen first next ihFirst ihNext =>
    rcases ihFirst h (s := s) with hlt | hnext
    · exact .inl (Nat.lt_of_lt_of_le hlt (holds_after _ _))
    · exact (ihNext _ hnext).imp_left (Nat.lt_of_le_of_lt (holds_after (E := E) first s))
  | look mode => exact .inr (h _)
  | ahead distance => exact .inr (h _)
  | take field => exact .inl (by simp)
  | takeWord keyword field => exact .inl (by simp)
  | report error => exact .inr h
  | node body => exact .inl (by simp)
  | wrap field body => exact .inr h
  | label field => exact .inr h
  | loop body ih =>
    -- what the first step adds, the others leave
    refine (ih h (s := s)).imp_left fun hlt => ?_
    rw [after_loop, State.repeatWhile]
    split
    · rename_i t ht
      rw [(Prod.mk.inj ht).2] at hlt
      exact Nat.lt_of_lt_of_le hlt
        (State.Holds.repeatWhile (fun u => holds_after body u) _ (s.noteStall t))
    · rename_i t ht
      rwa [(Prod.mk.inj ht).2] at hlt
  | call rule =>
    obtain ⟨kind, children, hmakes⟩ := E.makes rule s
    exact .inl (by simp [hmakes])
  | require mode kind => exact .inr h

/-- A run keeps a condition on nodes: if it holds of all nodes before, it does so behind, unless the
parse is stopped or, where `q` holds, something is wrong. -/
def Keeps (E : Setting) (P : Kind → List Shape → Prop) (q : Prop) (p : Parser α)
    (s : State) : Prop :=
  s.Every P → (E.after p s).Tame q → (E.after p s).Every P

theorem Keeps.bind {p : Parser β} {f : β → Parser α} (hp : E.Keeps P q p s)
    (hf : E.Keeps P q (f (E.val p s)) (E.after p s)) : E.Keeps P q (p >>= f) s :=
  fun hs htame => hf (hp hs ((grows_after _ _).tame htame)) htame

/-- A node keeps the condition if its body does and the node itself meets it. -/
theorem Keeps.node {body : Parser (Kind × α)} (hbody : E.Keeps P q body (s.enter E.limits []))
    (hkind : (E.after body (s.enter E.limits [])).Tame q →
      (q → (E.val body (s.enter E.limits [])).1 ≠ .error) →
      P (E.val body (s.enter E.limits [])).1
        (E.after body (s.enter E.limits [])).children.reverse) :
    E.Keeps P q (.node body) s := by
  intro hs htame
  have hinner := htame.of_close
  exact (hbody (State.every_enter_nil _) hinner).close hs
    (hkind hinner fun hq => (htame.quiet hq).of_close.1)

/-- A repetition keeps the condition if its steps do. -/
theorem Keeps.loop {body : Parser Bool} (h : ∀ t, E.Keeps P q body t) :
    E.Keeps P q (.loop body) s := by
  intro hs htame
  refine after_loop_induct (fun t => t.Tame q → t.Every P) (fun _ => hs)
    (fun t stalled ht hstalled => ht ⟨hstalled.1, fun hq => ?_⟩) (fun t ht htame => ?_) htame
  · obtain ⟨ha, hr, he⟩ := hstalled.2 hq
    exact ⟨ha, hr, he⟩
  · exact h t (ht ((grows_after body t).tame htame)) htame

/-- The condition holds of every node that a regular parser makes. -/
def Lenient (P : Kind → List Shape → Prop) (q : Prop) : Prop :=
  ∀ kind children, kind.isMarked = false → (children = [] → kind = .error) → (q → kind ≠ .error) →
    P kind children

/-- The rules but that of elements keep the condition. -/
def Upholds (E : Setting) (P : Kind → List Shape → Prop) (q : Prop) : Prop :=
  ∀ rule s, rule ≠ .element → E.Keeps P q (.call rule) s

/-- **Regular parsers keep a condition on marked nodes**, if the rules do. -/
theorem keeps_of_regular (hP : Lenient P q) (hE : E.Upholds P q) {p : Parser α} (hp : p.Regular) :
    E.Keeps P q p s := by
  -- of what is added to the first children, something is left at the end
  have hne {β : Type} {body : Parser β} {Q : β → Prop} (h : body.Fills Q) (t : State)
      (hnil : (E.after body t).children.reverse = []) : Q (E.val body t) := by
    refine (length_lt_after h).resolve_left fun hlt => ?_
    rw [List.reverse_eq_nil_iff.1 hnil] at hlt
    exact absurd hlt (Nat.not_lt_zero _)
  induction p generalizing s with
  | done value => exact fun hs _ => hs
  | andThen first next ihFirst ihNext => exact .bind (ihFirst hp.1) (ihNext _ (hp.2 _))
  | look mode => exact fun hs _ => hs
  | ahead distance => exact fun hs _ => hs
  | take field => exact fun hs _ => hs.takeAs _ _ _
  | takeWord keyword field => exact fun hs _ => hs.takeAs _ _ _
  | report error => exact fun hs _ c hc => hs c (by simpa using hc)
  | node body ih =>
    obtain ⟨hbody, hkind, hfills⟩ := hp
    exact .node (ih hbody) fun _ hsound => hP _ _ (hkind.val E _) (hne hfills _) hsound
  | wrap field body ih =>
    obtain ⟨hbody, hkind, hfills⟩ := hp
    intro hs htame
    rw [after_wrap] at htame ⊢
    exact (ih hbody (hs.wrapped _ _) htame.of_close).close
      (fun c hc => hs c (List.mem_of_mem_drop hc))
      (hP _ _ (hkind.val E _) (hne hfills _) fun hq => (htame.quiet hq).of_close.1)
  | label field => exact fun hs _ => hs.labelLast field
  | loop body ih => exact .loop fun _ => ih hp
  | call rule => exact hE rule s hp
  | require mode kind => exact fun hs _ => hs

end Setting

/-! ## Instructions -/

namespace Parser

section
variable {α β : Type} {Q : α → Prop}

@[simp] theorem fills_pure {a : α} : (pure a : Parser α).Fills Q ↔ Q a := Iff.rfl
@[simp] theorem fills_bind {p : Parser β} {f : β → Parser α} :
    (p >>= f).Fills Q ↔ p.Fills fun value => (f value).Fills Q := Iff.rfl
@[simp] theorem fills_look {mode : Mode} {Q : Glimpse → Prop} :
    (look mode).Fills Q ↔ ∀ g, Q g := Iff.rfl
@[simp] theorem fills_ahead {n : Nat} {Q : Glimpse → Prop} : (ahead n).Fills Q ↔ ∀ g, Q g := Iff.rfl
@[simp] theorem fills_take (field : Option Field) (Q : Unit → Prop) :
    (take field).Fills Q := trivial
@[simp] theorem fills_takeWord (keyword : Kind) (field : Option Field) (Q : Unit → Prop) :
    (takeWord keyword field).Fills Q := trivial
@[simp] theorem fills_report {error : SyntaxError} {Q : Unit → Prop} :
    (report error).Fills Q ↔ Q () := Iff.rfl
@[simp] theorem fills_node (body : Parser (Kind × α)) (Q : α → Prop) :
    (node body).Fills Q := trivial
@[simp] theorem fills_nodeOf (kind : Kind) (body : Parser Unit) (Q : Unit → Prop) :
    (nodeOf kind body).Fills Q := trivial
@[simp] theorem fills_label {field : Field} {Q : Unit → Prop} :
    (label field).Fills Q ↔ Q () := Iff.rfl
@[simp] theorem fills_loop {body : Parser Bool} {Q : Unit → Prop} :
    (loop body).Fills Q ↔ body.Fills fun _ => Q () := Iff.rfl
@[simp] theorem fills_call (rule : Rule) (Q : Unit → Prop) : (call rule).Fills Q := trivial
@[simp] theorem fills_callIn (field : Field) (rule : Rule) (Q : Unit → Prop) :
    (callIn field rule).Fills Q := trivial
@[simp] theorem fills_require {mode : Mode} {kind : Kind} {Q : Unit → Prop} :
    (require mode kind).Fills Q ↔ Q () := Iff.rfl
@[simp] theorem fills_true (p : Parser α) : p.Fills fun _ => True := .of_forall (fun _ => trivial) p

@[simp] theorem fills_ite {c : Prop} [Decidable c] {p q : Parser α} :
    (if c then p else q).Fills Q ↔ (c → p.Fills Q) ∧ (¬c → q.Fills Q) := by
  split <;> simp [*]

@[simp] theorem regular_pure (a : α) : (pure a : Parser α).Regular := trivial
@[simp] theorem regular_bind {p : Parser β} {f : β → Parser α} :
    (p >>= f).Regular ↔ p.Regular ∧ ∀ value, (f value).Regular := Iff.rfl
@[simp] theorem regular_look (mode : Mode) : (look mode).Regular := trivial
@[simp] theorem regular_ahead (n : Nat) : (ahead n).Regular := trivial
@[simp] theorem regular_take (field : Option Field) : (take field).Regular := trivial
@[simp] theorem regular_takeWord (keyword : Kind) (field : Option Field) :
    (takeWord keyword field).Regular := trivial
@[simp] theorem regular_report (error : SyntaxError) : (report error).Regular := trivial
@[simp] theorem regular_label (field : Field) : (label field).Regular := trivial
@[simp] theorem regular_loop {body : Parser Bool} : (loop body).Regular ↔ body.Regular := Iff.rfl
@[simp] theorem regular_call {rule : Rule} : (call rule).Regular ↔ rule ≠ .element := Iff.rfl
@[simp] theorem regular_require (mode : Mode) (kind : Kind) : (require mode kind).Regular := trivial

@[simp] theorem regular_ite {c : Prop} [Decidable c] {p q : Parser α} :
    (if c then p else q).Regular ↔ (c → p.Regular) ∧ (¬c → q.Regular) := by
  split <;> simp [*]

@[simp] theorem regular_node {body : Parser (Kind × α)} :
    (node body).Regular ↔ body.Regular ∧ (body.Yields fun made => made.1.isMarked = false) ∧
      body.Fills fun made => made.1 = .error := Iff.rfl

@[simp] theorem regular_wrap {field : Field} {body : Parser Kind} :
    (wrap field body).Regular ↔ body.Regular ∧ (body.Yields fun kind => kind.isMarked = false) ∧
      body.Fills fun kind => kind = .error := Iff.rfl

@[simp] theorem regular_nodeOf {kind : Kind} {body : Parser Unit} :
    (nodeOf kind body).Regular ↔
      body.Regular ∧ kind.isMarked = false ∧ body.Fills fun _ => kind = .error := by
  simp [nodeOf]

@[simp] theorem regular_when {c : Bool} {p : Parser Unit} :
    (when c p).Regular ↔ (c = true → p.Regular) := by
  simp [when]

theorem regular_of_onlyLooks {p : Parser α} (h : p.OnlyLooks) : p.Regular := by
  induction p with
  | andThen first next ihFirst ihNext => exact ⟨ihFirst h.1, fun value => ihNext value (h.2 value)⟩
  | done value => trivial
  | ahead distance => trivial
  | _ => exact h.elim

end

/-! ## The common pieces -/

@[simp] theorem regular_peek : peek.Regular := by simp [peek]
@[simp] theorem regular_sees (kind : Kind) : (sees kind).Regular := by simp [sees]
@[simp] theorem regular_seesIn (mode : Mode) (kind : Kind) : (seesIn mode kind).Regular := by
  simp [seesIn]
@[simp] theorem regular_seesWord (word : String) : (seesWord word).Regular := by simp [seesWord]
@[simp] theorem regular_leaf {kind : Kind} : (leaf kind).Regular ↔ kind.isMarked = false := by
  simp [leaf]
@[simp] theorem regular_wordLeaf {keyword kind : Kind} :
    (wordLeaf keyword kind).Regular ↔ kind.isMarked = false := by
  simp [wordLeaf]
@[simp] theorem regular_eat (kind : Kind) : (eat kind).Regular := by simp [eat]
@[simp] theorem regular_eatWord (keyword : Kind) : (eatWord keyword).Regular := by simp [eatWord]
@[simp] theorem regular_missing (error : SyntaxError) : (missing error).Regular := by
  simp +decide [missing]
@[simp] theorem regular_reject (error : SyntaxError) : (reject error).Regular := by
  simp +decide [reject]
@[simp] theorem regular_rejectUnless (stops : KindSet) (error : SyntaxError) :
    (rejectUnless stops error).Regular := by
  simp [rejectUnless]
@[simp] theorem regular_expectIn (mode : Mode) (kind : Kind) : (expectIn mode kind).Regular := by
  simp [expectIn]
@[simp] theorem regular_expect (kind : Kind) : (expect kind).Regular := by simp [expect]
@[simp] theorem regular_expectWord (keyword : Kind) : (expectWord keyword).Regular := by
  simp [expectWord]
@[simp] theorem regular_callIn {field : Field} {rule : Rule} :
    (callIn field rule).Regular ↔ rule ≠ .element := by
  simp [callIn]

section
variable (Q : Unit → Prop)

@[simp] theorem fills_missing (error : SyntaxError) : (missing error).Fills Q := by simp [missing]
@[simp] theorem fills_reject (error : SyntaxError) : (reject error).Fills Q := by
  simp [reject, leaf]
@[simp] theorem fills_rejectUnless (stops : KindSet) (error : SyntaxError) :
    (rejectUnless stops error).Fills Q := by
  simp [rejectUnless]
@[simp] theorem fills_expect (kind : Kind) : (expect kind).Fills Q := by
  simp [expect, expectIn]

end

end Parser

namespace Grammar

open ActionScript.Parser

/-! ## Names, lists and types -/

@[simp] theorem regular_name (field : Field) (stops : List Kind) : (name field stops).Regular := by
  simp +decide [name]

@[simp] theorem fills_name (field : Field) (stops : List Kind) (Q : Unit → Prop) :
    (name field stops).Fills Q := by
  simp [name, leaf]

@[simp] theorem regular_qualifiedName (field : Field) (wildcard : Bool) :
    (qualifiedName field wildcard).Regular := by
  simp +decide [qualifiedName, nameTail]

@[simp] theorem regular_delimited (b : Brackets) {item : Parser Bool} (h : item.Regular) :
    (delimited b item).Regular := by
  simp [delimited, h]

@[simp] theorem fills_delimited (b : Brackets) (item : Parser Bool) (Q : Unit → Prop) :
    (delimited b item).Fills Q := by
  simp [delimited]

@[simp] theorem regular_semicolon : semicolon.Regular := by
  simp +decide [semicolon, skipStatement]

@[simp] theorem regular_braced {kind : Kind} (h : kind.isMarked = false) :
    (braced kind).Regular := by
  simp [braced, statements, h]

@[simp] theorem regular_block : block.Regular := regular_braced (by decide)

@[simp] theorem regular_expression (field : Field) : (expression field).Regular := by
  simp [expression]

@[simp] theorem regular_assignment (field : Field) : (assignment field).Regular := by
  simp [assignment]

@[simp] theorem fills_expression (field : Field) (Q : Unit → Prop) : (expression field).Fills Q :=
  fills_callIn _ _ _

@[simp] theorem fills_assignment (field : Field) (Q : Unit → Prop) : (assignment field).Fills Q :=
  fills_callIn _ _ _

@[simp] theorem regular_typeIn (field : Field) : (typeIn field).Regular := by
  simp [typeIn]

@[simp] theorem regular_typeAscription? (field : Field) : (typeAscription? field).Regular := by
  simp +decide [typeAscription?, typeAscription]

@[simp] theorem regular_typeArguments : typeArguments.Regular := by
  simp +decide [typeArguments]

@[simp] theorem fills_typeArguments (Q : Unit → Prop) : typeArguments.Fills Q := by
  simp [typeArguments]

@[simp] theorem regular_typeName : typeName.Regular := by
  simp +decide [typeName]

@[simp] theorem regular_typeRule : typeRule.Regular := by
  refine ⟨regular_look _, fun g => ?_⟩
  dsimp only
  split <;> simp +decide

@[simp] theorem regular_parameter : parameter.Regular := by
  simp +decide [parameter]

@[simp] theorem regular_restParameter : restParameter.Regular := by
  simp +decide [restParameter]

@[simp] theorem regular_parameterList : parameterList.Regular := by
  simp only [parameterList, regular_bind, regular_nodeOf, regular_take, regular_loop, regular_peek,
    regular_expect, regular_label, fills_bind, fills_take, true_and, and_true, implies_true]
  refine ⟨fun _ k => ?_, by decide⟩
  split <;> simp

@[simp] theorem regular_signature : signature.Regular := by
  simp [signature]

/-! ## Expressions -/

theorem regular_operation (op : Kind) (p : Precedence) (r : Restrictions) :
    (operation op p r).Regular ∧ ((operation op p r).Yields fun kind => kind.isMarked = false) ∧
      (operation op p r).Fills fun kind => kind = .error := by
  unfold operation
  split <;> simp +decide [takeOperator]

theorem regular_expressionRule (min : Precedence) (r : Restrictions) :
    (expressionRule min r).Regular := by
  refine ⟨by simp, fun _ => ⟨regular_look _, fun g => ?_⟩⟩
  dsimp only
  split
  · simp
  · simp [regular_operation]

@[simp] theorem regular_arguments : arguments.Regular := by
  simp +decide [arguments]

@[simp] theorem fills_arguments (Q : Unit → Prop) : arguments.Fills Q := by
  simp [arguments]

@[simp] theorem regular_elements : elements.Regular := by
  simp [elements]

@[simp] theorem fills_elements (Q : Unit → Prop) : elements.Fills Q := by
  simp [elements]

@[simp] theorem regular_property? : property?.Regular := by
  refine ⟨regular_peek,
    fun k => regular_ite.2 ⟨fun _ => ⟨regular_nodeOf.2 ⟨?_, by decide, ?_⟩, ?_⟩, ?_⟩⟩
  · refine ⟨regular_leaf.2 ?_, by simp⟩
    split <;> decide
  · simp [leaf]
  · simp
  · simp

@[simp] theorem regular_objectLiteral : objectLiteral.Regular := by
  simp +decide [objectLiteral]

@[simp] theorem regular_opensVector : opensVector.Regular :=
  regular_of_onlyLooks (Setting.onlyLooks_closesVector _ _ _)

@[simp] theorem regular_vectorBody : vectorBody.Regular := by
  simp [vectorBody]

@[simp] theorem regular_functionExpression : functionExpression.Regular := by
  simp +decide [functionExpression]

@[simp] theorem regular_wordOperand (g : Glimpse) : (wordOperand g).Regular := by
  unfold wordOperand
  split <;> simp +decide

@[simp] theorem regular_propertyName : propertyName.Regular := by
  refine ⟨regular_peek, fun k => ⟨?_, fun _ => regular_label _⟩⟩
  split <;> simp +decide

@[simp] theorem regular_link (calls : Bool) : (link calls).Regular := by
  refine ⟨regular_look _, fun g => ?_⟩
  dsimp only
  split <;> simp +decide

/-! ## Elements -/

@[simp] theorem regular_interpolation (field : Field) : (interpolation field).Regular := by
  simp +decide [interpolation]

@[simp] theorem regular_tagName : tagName.Regular := by
  refine ⟨regular_look _, fun g => ?_⟩
  dsimp only
  split <;> simp

@[simp] theorem regular_tagName? : tagName?.Regular := by
  simp [tagName?]

@[simp] theorem regular_tagAttribute : tagAttribute.Regular := by
  simp only [tagAttribute, regular_bind, regular_nodeOf, regular_take, regular_expectIn,
    regular_when, regular_look, regular_label, fills_bind, fills_take, true_and, and_true,
    implies_true]
  refine ⟨fun _ _ _ g => ?_, by decide⟩
  split <;> simp

@[simp] theorem regular_attributes : attributes.Regular := by
  refine ⟨regular_look _, fun g => ?_⟩
  dsimp only
  split <;> simp

@[simp] theorem regular_checkName (opening closing : Option Text) :
    (checkName opening closing).Regular := by
  unfold checkName
  split <;> simp

@[simp] theorem regular_endTag (opening : Option Text) : (endTag opening).Regular := by
  simp +decide [endTag]

/-! ## Declarations -/

@[simp] theorem regular_nextDeclaration? : nextDeclaration?.Regular :=
  regular_of_onlyLooks (Setting.onlyLooks_declarationWord? _ _)

@[simp] theorem regular_behindMetadata? (i : Nat) : (behindMetadata? i).Regular :=
  regular_of_onlyLooks (Setting.onlyLooks_behindMetadata? i)

@[simp] theorem regular_metadataArgument? : metadataArgument?.Regular := by
  simp +decide [metadataArgument?]

@[simp] theorem regular_metadataRun : metadataRun.Regular := by
  simp +decide [metadataRun, metadata]

@[simp] theorem regular_modifier {kind : Kind} (h : kind.isMarked = false) (g : Glimpse) :
    (modifier kind g).Regular := by
  unfold modifier
  split <;> simp [h]

@[simp] theorem regular_modifiers (keyword : Kind) : (modifiers keyword).Regular := by
  simp +decide [modifiers]

@[simp] theorem regular_memberBody {kind : Kind} (h : kind.isMarked = false) :
    (memberBody kind).Regular := by
  simp [memberBody, h]

@[simp] theorem regular_clause? {kind : Kind} (h : kind.isMarked = false) (keyword : Kind)
    (field : Field) {body : Parser Unit} (hbody : body.Regular) :
    (clause? keyword kind field body).Regular := by
  simp [clause?, h, hbody]

@[simp] theorem regular_typeList : typeList.Regular := by
  simp [typeList]

@[simp] theorem regular_classBody : classBody.Regular := by
  simp +decide [classBody]

@[simp] theorem regular_interfaceBody : interfaceBody.Regular := by
  simp +decide [interfaceBody]

@[simp] theorem regular_functionBody : functionBody.Regular := by
  simp [functionBody, accessor]

@[simp] theorem regular_declarators (r : Restrictions) : (declarators r).Regular := by
  simp +decide [declarators]

@[simp] theorem regular_variableBody (keyword : Kind) : (variableBody keyword).Regular := by
  simp [variableBody]

@[simp] theorem regular_namespaceBody : namespaceBody.Regular := by
  simp [namespaceBody]

/-- A declaration is regular, of an unmarked kind, and not empty. -/
theorem regular_declarationBody (keyword : Kind) :
    (declarationBody keyword).Regular ∧
      ((declarationBody keyword).Yields fun kind => kind.isMarked = false) ∧
      ∀ Q, (declarationBody keyword).Fills Q := by
  have hfills {Q : Kind → Prop} {next : Unit → Parser Kind} (h : (next ()).Fills Q) :
      (modifiers keyword >>= next).Fills Q := .of_forall (fun _ => h) _
  unfold declarationBody
  rw [regular_bind, yields_bind]
  refine ⟨⟨regular_modifiers keyword, fun _ => ?_⟩, ?_, fun Q => hfills ?_⟩
  · split <;> simp
  · split <;> simp +decide
  · split <;> simp [classBody, interfaceBody, functionBody, variableBody, namespaceBody]

@[simp] theorem regular_declaration (keyword : Kind) : (declaration keyword).Regular := by
  simp [declaration, regular_declarationBody]

@[simp] theorem regular_annotated : annotated.Regular := by
  simp only [annotated, regular_node, regular_bind, regular_metadataRun, regular_nextDeclaration?,
    yields_bind, fills_bind, true_and]
  refine ⟨fun _ k => ?_, .of_forall (fun _ => .of_forall (fun k => ?_) _) _,
    .of_forall (fun _ => .of_forall (fun k => ?_) _) _⟩
  · split <;> simp [regular_declarationBody]
  · split <;> simp +decide [regular_declarationBody]
  · split <;> simp [regular_declarationBody]

@[simp] theorem regular_variableHead : variableHead.Regular := by
  simp +decide [variableHead]

@[simp] theorem regular_packageDeclaration : packageDeclaration.Regular := by
  simp +decide [packageDeclaration]

@[simp] theorem regular_importStatement : importStatement.Regular := by
  simp +decide [importStatement]

@[simp] theorem regular_includeDirective : includeDirective.Regular := by
  simp +decide [includeDirective]

@[simp] theorem regular_useNamespaceDirective : useNamespaceDirective.Regular := by
  simp +decide [useNamespaceDirective]

/-! ## Statements -/

@[simp] theorem regular_statementIn (field : Field) : (statementIn field).Regular := by
  simp [statementIn]

@[simp] theorem regular_expressionStatement : expressionStatement.Regular := by
  simp +decide [expressionStatement]

@[simp] theorem regular_parenthesized (field : Field) : (parenthesized field).Regular := by
  simp [parenthesized]

@[simp] theorem regular_ifStatement : ifStatement.Regular := by
  simp +decide [ifStatement]

@[simp] theorem regular_switchClause (g : Glimpse) : (switchClause g).Regular := by
  simp +decide [switchClause, clauseStatements]

@[simp] theorem regular_switchStatement : switchStatement.Regular := by
  simp +decide [switchStatement]

@[simp] theorem regular_forStatement : forStatement.Regular := by
  simp +decide [forStatement, forHead]

@[simp] theorem regular_whileStatement : whileStatement.Regular := by
  simp +decide [whileStatement]

@[simp] theorem regular_doStatement : doStatement.Regular := by
  simp +decide [doStatement]

@[simp] theorem regular_withStatement : withStatement.Regular := by
  simp +decide [withStatement]

@[simp] theorem regular_bodyBlock : bodyBlock.Regular := by
  simp [bodyBlock]

@[simp] theorem regular_tryStatement : tryStatement.Regular := by
  simp +decide [tryStatement, catchClauses, catchClause]

@[simp] theorem regular_jumpStatement {kind : Kind} (h : kind.isMarked = false) (keyword : Kind) :
    (jumpStatement keyword kind).Regular := by
  simp [jumpStatement, h]

@[simp] theorem regular_valueStatement {kind : Kind} (h : kind.isMarked = false) (keyword : Kind) :
    (valueStatement keyword kind).Regular := by
  simp [valueStatement, h]

@[simp] theorem regular_plainWordStatement : plainWordStatement.Regular := by
  refine ⟨regular_nextDeclaration?, fun k => ?_⟩
  dsimp only
  split <;> simp +decide [labeledStatement]

@[simp] theorem regular_wordStatement (g : Glimpse) : (wordStatement g).Regular := by
  unfold wordStatement
  split <;> simp +decide

theorem regular_statementRule : statementRule.Regular := by
  have hannotated : seesAnnotatedDeclaration.Regular :=
    regular_of_onlyLooks Setting.onlyLooks_seesAnnotatedDeclaration
  refine ⟨regular_look _, fun g => ?_⟩
  dsimp only
  split <;> simp +decide [hannotated]

theorem regular_sourceFile : sourceFile.Regular := by
  simp +decide [sourceFile]

end Grammar

end ActionScript
