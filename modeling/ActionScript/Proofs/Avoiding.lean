import ActionScript.Proofs.Markup.Crafted

/-!
# Kinds that a parser does not make

Most of what is said of a tree concerns the nodes of a few kinds.  A routine that makes none of them
keeps it, so of all other routines it is enough to know which kinds and rules they stay away from.

* `Parser.Avoids`: a parser makes no node of the kinds `S` by itself, and applies the rule for
  statements only if it may.
* `Kind.Special`: only kinds that are told apart in this way are in `S`; then most routines avoid
  them.
* `Setting.keeps_of_avoids`: **such parsers keep a condition on nodes of the kinds `S`**, if the
  rules do.
* `Grammar.avoids_rule_unmade`: no rule makes a node of a kind that is for other things.
* `Parser.Closes`: of which kind the node is that a parser ends with.  `Parser.Slots`: which slots
  the parser fills.
-/

set_option autoImplicit false

namespace ActionScript

/-- Nodes of the kind are made by few routines, if by any, and more is said of them. -/
def Kind.isSpecial : Kind → Bool
  | .unknown | .tombstone | .importStmt | .includeDirective | .useNamespaceDirective
  | .namespaceDecl | .interfaceDecl | .functionDecl | .variableDecl | .constantDecl
  | .propertyAttribute | .exprStmt | .ifStmt | .forStmt | .forInStmt | .forEachInStmt | .whileStmt
  | .withStmt | .breakStmt | .continueStmt | .returnStmt | .throwStmt | .labeledStmt | .updateExpr
  | .stringLiteral | .regexLiteral | .xmlExpr => true
  | _ => false

/-- All of the kinds are special. -/
class Kind.Special (S : List Kind) : Prop where
  isSpecial : ∀ k ∈ S, k.isSpecial = true

@[simp] theorem Kind.not_mem_special {S : List Kind} [Special S] {k : Kind}
    (h : k.isSpecial = false) : k ∉ S := by
  intro hk
  rw [Special.isSpecial k hk] at h
  cases h

/-- The kind of a token without a reading, and that of a node that is not completed. -/
def Kind.unmade : List Kind := [.unknown, .tombstone]

instance : Kind.Special Kind.unmade := ⟨by decide⟩

theorem Kind.ne_tombstone {k : Kind} (h : k ∉ Kind.unmade) : k ≠ .tombstone := by
  rintro rfl
  exact h (by decide)

theorem Kind.ite_mem {S : List Kind} {c : Prop} [Decidable c] {k l : Kind} :
    (if c then k else l) ∈ S ↔ (c ∧ k ∈ S) ∨ (¬c ∧ l ∈ S) := by
  split <;> simp [*]

namespace Parser

/-- The parser makes no node of the kinds by itself, applies the rule for statements only if it may,
and reads as in markup only if it is made for tags. -/
def Avoids (S : List Kind) (may tags : Prop) : {α : Type} → Parser α → Prop
  | _, .andThen first next => Avoids S may tags first ∧ ∀ value, Avoids S may tags (next value)
  | _, .node body => Avoids S may tags body ∧ body.Yields fun made => made.1 ∉ S
  | _, .wrap _ body => Avoids S may tags body ∧ body.Yields fun kind => kind ∉ S
  | _, .loop body => Avoids S may tags body
  | _, .call rule => rule = .statement → may
  | _, .look mode => mode.isCode = false → tags
  | _, _ => True

/-- The parser ends with a node that it makes by itself, of a kind as `Q` says. -/
def Closes (Q : Kind → Prop) : {α : Type} → Parser α → Prop
  | _, .andThen _ next => ∀ value, Closes Q (next value)
  | _, .node body => body.Yields fun made => Q made.1
  | _, _ => False

/-- The parser fills no slots of the open node but those in `F`. -/
def Slots (F : Field → Prop) : {α : Type} → Parser α → Prop
  | _, .andThen first next => Slots F first ∧ ∀ value, Slots F (next value)
  | _, .take field => ∀ f ∈ field, F f
  | _, .takeWord _ field => ∀ f ∈ field, F f
  | _, .label f => F f
  | _, .loop body => Slots F body
  | _, _ => True

end Parser

namespace State

/-- The children of the open node fill no slots but those in `F`. -/
def Slots (F : Field → Prop) (s : State) : Prop := ∀ c ∈ s.children, ∀ f ∈ c.slot?, F f

theorem slots_enter_nil {F : Field → Prop} {s : State} (limits : Limits) :
    (s.enter limits []).Slots F := fun _ hc => absurd hc List.not_mem_nil

variable {G : Shape → Prop} {s t : State}

theorem forall_takeAs [Alphabet] (h : ∀ c ∈ s.children, G c) (limits : Limits) (kind : Kind)
    (field : Option Field) (hG : ∀ c : Shape, c.slot? = field → G c) :
    ∀ c ∈ (s.takeAs limits kind field).children, G c := by
  intro c hc
  rw [takeAs_children, List.mem_cons] at hc
  rcases hc with rfl | hc
  · exact hG _ rfl
  · exact h c hc

/-- A node that is just made fills no slot yet. -/
theorem forall_made (h : ∀ c ∈ s.children, G c) {kind : Kind} {kids outer : List Shape}
    (ht : t.children = .node kind none kids :: outer) (houter : ∀ c ∈ outer, c ∈ s.children)
    (hG : ∀ c : Shape, c.slot? = none → G c) : ∀ c ∈ t.children, G c := by
  intro c hc
  rw [ht, List.mem_cons] at hc
  rcases hc with rfl | hc
  · exact hG _ rfl
  · exact h c (houter c hc)

theorem forall_labelLast (h : ∀ c ∈ s.children, G c) (field : Field)
    (hG : ∀ c : Shape, c.slot? = some field → G c) : ∀ c ∈ (s.labelLast field).children, G c := by
  cases hs : s.children with
  | nil =>
    rw [State.labelLast, hs]
    exact h
  | cons c cs =>
    intro d hd
    rw [labelLast_children s field hs, List.mem_cons] at hd
    rcases hd with rfl | hd
    · exact hG _ (Shape.slot?_withField _ _)
    · exact h d (by simp [hs, hd])

end State

namespace Setting

variable [Alphabet] {E : Setting} {P : Kind → List Shape → Prop} {q : Prop} {s : State} {α : Type}

/-- The rules keep a condition on nodes. -/
def Retains (E : Setting) (P : Kind → List Shape → Prop) (q : Prop) : Prop :=
  ∀ rule s, E.Keeps P q (.call rule) s

theorem Keeps.nodeOf {kind : Kind} {body : Parser Unit}
    (hbody : E.Keeps P q body (s.enter E.limits []))
    (hkind : (E.after body (s.enter E.limits [])).Tame q →
      P kind (E.after body (s.enter E.limits [])).children.reverse) :
    E.Keeps P q (Parser.nodeOf kind body) s := by
  intro hs htame
  rw [after_nodeOf] at htame ⊢
  have htame := htame.of_close
  exact (hbody (State.every_enter_nil _) htame).close hs (hkind htame)

/-- **A parser that makes no special nodes keeps a condition on those**, if the rules do. -/
theorem keeps_of_avoids {S : List Kind} {may tags : Prop}
    (hP : ∀ kind children, kind ∉ S → P kind children) (hE : E.Retains P q) {p : Parser α}
    (hp : p.Avoids S may tags) : E.Keeps P q p s := by
  induction p generalizing s with
  | done value => exact fun hs _ => hs
  | andThen first next ihFirst ihNext => exact .bind (ihFirst hp.1) (ihNext _ (hp.2 _))
  | look mode => exact fun hs _ => hs
  | ahead distance => exact fun hs _ => hs
  | take field => exact fun hs _ => hs.takeAs _ _ _
  | takeWord keyword field => exact fun hs _ => hs.takeAs _ _ _
  | report error => exact fun hs _ c hc => hs c (by simpa using hc)
  | node body ih => exact .node (ih hp.1) fun _ _ => hP _ _ (hp.2.val E _)
  | wrap field body ih =>
    intro hs htame
    rw [after_wrap] at htame ⊢
    exact (ih hp.1 (hs.wrapped _ _) htame.of_close).close
      (fun c hc => hs c (List.mem_of_mem_drop hc)) (hP _ _ (hp.2.val E _))
  | label field => exact fun hs _ => hs.labelLast field
  | loop body ih => exact .loop fun _ => ih hp
  | call rule => exact hE rule s
  | require mode kind => exact fun hs _ => hs

/-- What a parser ends with is the last child. -/
theorem exists_end {Q : Kind → Prop} {p : Parser α} (hp : p.Closes Q) :
    ∃ kind kids outer, (E.after p s).children = .node kind none kids :: outer ∧ Q kind := by
  induction p generalizing s with
  | andThen first next ihFirst ihNext => exact ihNext _ (hp _)
  | node body => exact ⟨_, _, _, rfl, hp.val E _⟩
  | _ => exact hp.elim

/-- **What holds of all children in the slots that a parser fills, and in no slot, holds of all
children behind it**, if it held of those before. -/
theorem forall_children_after {F : Field → Prop} {G : Shape → Prop}
    (hG : ∀ c : Shape, (∀ f ∈ c.slot?, F f) → G c) {p : Parser α} (hp : p.Slots F)
    (hs : ∀ c ∈ s.children, G c) : ∀ c ∈ (E.after p s).children, G c := by
  have hnone (c : Shape) (hc : c.slot? = none) : G c := hG c (by simp [hc])
  have hfield (field : Option Field) (hfield : ∀ f ∈ field, F f) (c : Shape)
      (hc : c.slot? = field) :
      G c := hG c (by rwa [hc])
  induction p generalizing s with
  | andThen first next ihFirst ihNext => exact ihNext _ (hp.2 _) (ihFirst hp.1 hs)
  | take field => exact State.forall_takeAs hs _ _ _ (hfield _ hp)
  | takeWord keyword field => exact State.forall_takeAs hs _ _ _ (hfield _ hp)
  | report error => exact fun c hc => hs c (by simpa using hc)
  | node body ih => exact State.forall_made hs rfl (fun _ hc => hc) hnone
  | wrap field body ih => exact State.forall_made hs rfl (fun _ hc => List.mem_of_mem_drop hc) hnone
  | label field =>
    exact State.forall_labelLast hs field (hfield _ fun f hf => Option.some.inj hf ▸ hp)
  | loop body ih =>
    exact after_loop_induct (fun t => ∀ c ∈ t.children, G c) hs (fun _ _ h => h) fun _ => ih hp
  | call rule =>
    obtain ⟨kind, children, hmakes⟩ := E.makes rule s
    exact State.forall_made hs hmakes (fun _ hc => hc) hnone
  | _ => exact hs

/-- A parser adds nothing to slots that it does not fill. -/
theorem slots_after {F : Field → Prop} {p : Parser α} (hp : p.Slots F) (hs : s.Slots F) :
    (E.after p s).Slots F := forall_children_after (fun _ h => h) hp hs

/-! Some routines only add children, and leave those that are there. -/

section
variable {ok : Shape → Prop}

theorem adds_bind {β : Type} {p : Parser β} {f : β → Parser α} (hp : s.Adds ok (E.after p s))
    (hf : (E.after p s).Adds ok (E.after (f (E.val p s)) (E.after p s))) :
    s.Adds ok (E.after (p >>= f) s) := hp.trans hf

theorem adds_callIn {field : Field} (hok : ∀ c : Shape, c.slot? = some field → ok c) (rule : Rule) :
    s.Adds ok (E.after (Parser.callIn field rule) s) := by
  obtain ⟨kind, kids, hmakes⟩ := E.makes rule s
  exact .one (State.labelLast_children _ _ hmakes) (hok _ rfl)

theorem adds_when {c : Bool} {p : Parser Unit} (h : s.Adds ok (E.after p s)) :
    s.Adds ok (E.after (Parser.when c p) s) := by
  rw [after_when]
  split
  · exact h
  · exact .of_eq rfl

variable (hok : ∀ c : Shape, c.slot? = none → ok c)
include hok

theorem adds_takeWord (keyword : Kind) : s.Adds ok (E.after (.takeWord keyword none) s) :=
  .one (State.takeAs_children _ _ _ _) (hok _ rfl)

theorem adds_eatWord (keyword : Kind) : s.Adds ok (E.after (Parser.eatWord keyword) s) := by
  simp only [Parser.eatWord, after_bind, val_look, after_look, after_ite, after_pure]
  split
  · exact adds_takeWord (s := s.inMode .operator) hok keyword
  · exact .of_eq rfl

theorem adds_expect (kind : Kind) : s.Adds ok (E.after (Parser.expect kind) s) := by
  simp only [Parser.expect, Parser.expectIn, after_bind, after_pure, val_seesIn,
    after_seesIn, after_ite]
  split
  · exact .one (State.takeAs_children _ _ _ _) (hok _ rfl)
  · obtain ⟨kind, kids, hmakes⟩ := makes_missing (E := E) (s := s.inMode .operator) (.expected kind)
    exact .one hmakes (hok _ rfl)

end

end Setting

/-! ## Instructions -/

namespace Mode

@[simp] theorem isCode_operator : operator.isCode = true := rfl
@[simp] theorem isCode_exprStart : exprStart.isCode = true := rfl
@[simp] theorem isCode_typeArgs : typeArgs.isCode = true := rfl

end Mode

namespace Parser

section
variable {α β : Type} {S : List Kind} {may tags : Prop}

@[simp] theorem avoids_pure (a : α) : (pure a : Parser α).Avoids S may tags := trivial
@[simp] theorem avoids_bind {p : Parser β} {f : β → Parser α} :
    (p >>= f).Avoids S may tags ↔ p.Avoids S may tags ∧ ∀ value, (f value).Avoids S may tags :=
  Iff.rfl
@[simp] theorem avoids_look {mode : Mode} :
    (look mode).Avoids S may tags ↔ (mode.isCode = false → tags) := Iff.rfl
@[simp] theorem avoids_ahead (n : Nat) : (ahead n).Avoids S may tags := trivial
@[simp] theorem avoids_take (field : Option Field) : (take field).Avoids S may tags := trivial
@[simp] theorem avoids_takeWord (keyword : Kind) (field : Option Field) :
    (takeWord keyword field).Avoids S may tags := trivial
@[simp] theorem avoids_report (error : SyntaxError) : (report error).Avoids S may tags := trivial
@[simp] theorem avoids_label (field : Field) : (label field).Avoids S may tags := trivial
@[simp] theorem avoids_loop {body : Parser Bool} :
    (loop body).Avoids S may tags ↔ body.Avoids S may tags := Iff.rfl
@[simp] theorem avoids_call {rule : Rule} :
    (call rule).Avoids S may tags ↔ (rule = .statement → may) := Iff.rfl
@[simp] theorem avoids_require (mode : Mode) (kind : Kind) :
    (require mode kind).Avoids S may tags := trivial

@[simp] theorem avoids_ite {c : Prop} [Decidable c] {p q : Parser α} :
    (if c then p else q).Avoids S may tags ↔ (c → p.Avoids S may tags) ∧
    (¬c → q.Avoids S may tags) := by
  split <;> simp [*]

@[simp] theorem avoids_node {body : Parser (Kind × α)} :
    (node body).Avoids S may tags ↔ body.Avoids S may tags ∧ body.Yields fun made => made.1 ∉ S :=
  Iff.rfl

@[simp] theorem avoids_wrap {field : Field} {body : Parser Kind} :
    (wrap field body).Avoids S may tags ↔ body.Avoids S may tags ∧
    body.Yields fun kind => kind ∉ S := Iff.rfl

@[simp] theorem avoids_nodeOf {kind : Kind} {body : Parser Unit} :
    (nodeOf kind body).Avoids S may tags ↔ body.Avoids S may tags ∧ kind ∉ S := by
  simp [nodeOf]

@[simp] theorem avoids_when {c : Bool} {p : Parser Unit} :
    (when c p).Avoids S may tags ↔ (c = true → p.Avoids S may tags) := by
  simp [when]

@[simp] theorem closes_bind {Q : Kind → Prop} {p : Parser β} {f : β → Parser α} :
    (p >>= f).Closes Q ↔ ∀ value, (f value).Closes Q := Iff.rfl
@[simp] theorem closes_node {Q : Kind → Prop} {body : Parser (Kind × α)} :
    (node body).Closes Q ↔ body.Yields fun made => Q made.1 := Iff.rfl
@[simp] theorem closes_nodeOf {Q : Kind → Prop} {kind : Kind} {body : Parser Unit} :
    (nodeOf kind body).Closes Q ↔ Q kind := by
  simp [nodeOf]
@[simp] theorem closes_leaf {Q : Kind → Prop} {kind : Kind} : (leaf kind).Closes Q ↔ Q kind :=
  closes_nodeOf
@[simp] theorem closes_ite {Q : Kind → Prop} {c : Prop} [Decidable c] {p q : Parser α} :
    (if c then p else q).Closes Q ↔ (c → p.Closes Q) ∧ (¬c → q.Closes Q) := by
  split <;> simp [*]
@[simp] theorem closes_missing {Q : Kind → Prop} {error : SyntaxError} :
    (missing error).Closes Q ↔ Q .error := by
  simp [missing]
@[simp] theorem closes_reject {Q : Kind → Prop} {error : SyntaxError} :
    (reject error).Closes Q ↔ Q .error := by
  simp [reject, sees, peek, forall_and]

@[simp] theorem slots_pure {F : Field → Prop} (a : α) : (pure a : Parser α).Slots F := trivial
@[simp] theorem slots_bind {F : Field → Prop} {p : Parser β} {f : β → Parser α} :
    (p >>= f).Slots F ↔ p.Slots F ∧ ∀ value, (f value).Slots F := Iff.rfl
@[simp] theorem slots_look (F : Field → Prop) (mode : Mode) : (look mode).Slots F := trivial
@[simp] theorem slots_take {F : Field → Prop} {field : Option Field} :
    (take field).Slots F ↔ ∀ f ∈ field, F f := Iff.rfl
@[simp] theorem slots_takeWord {F : Field → Prop} {keyword : Kind} {field : Option Field} :
    (takeWord keyword field).Slots F ↔ ∀ f ∈ field, F f := Iff.rfl
@[simp] theorem slots_report (F : Field → Prop) (error : SyntaxError) :
    (report error).Slots F := trivial
@[simp] theorem slots_label {F : Field → Prop} {f : Field} : (label f).Slots F ↔ F f := Iff.rfl
@[simp] theorem slots_call (F : Field → Prop) (rule : Rule) : (call rule).Slots F := trivial
@[simp] theorem slots_node (F : Field → Prop) (body : Parser (Kind × α)) :
    (node body).Slots F := trivial
@[simp] theorem slots_nodeOf (F : Field → Prop) (kind : Kind) (body : Parser Unit) :
    (nodeOf kind body).Slots F := trivial
@[simp] theorem slots_ite {F : Field → Prop} {c : Prop} [Decidable c] {p q : Parser α} :
    (if c then p else q).Slots F ↔ (c → p.Slots F) ∧ (¬c → q.Slots F) := by
  split <;> simp [*]
@[simp] theorem slots_when {F : Field → Prop} {c : Bool} {p : Parser Unit} :
    (when c p).Slots F ↔ (c = true → p.Slots F) := by
  simp [when]
@[simp] theorem slots_sees (F : Field → Prop) (kind : Kind) : (sees kind).Slots F := by
  simp [sees, peek]
@[simp] theorem slots_seesWord (F : Field → Prop) (word : String) : (seesWord word).Slots F := by
  simp [seesWord]
@[simp] theorem slots_expect (F : Field → Prop) (kind : Kind) : (expect kind).Slots F := by
  simp [expect, expectIn, seesIn, missing]
@[simp] theorem slots_eatWord (F : Field → Prop) (keyword : Kind) : (eatWord keyword).Slots F := by
  simp [eatWord]
@[simp] theorem slots_callIn {F : Field → Prop} {field : Field} {rule : Rule} :
    (callIn field rule).Slots F ↔ F field := by
  simp [callIn]

theorem avoids_of_onlyLooks {p : Parser α} (h : p.OnlyLooks) : p.Avoids S may tags := by
  induction p with
  | andThen first next ihFirst ihNext => exact ⟨ihFirst h.1, fun value => ihNext value (h.2 value)⟩
  | done value => trivial
  | ahead distance => trivial
  | _ => exact h.elim

@[simp] theorem avoids_peek : peek.Avoids S may tags := by simp [peek]
@[simp] theorem avoids_sees (kind : Kind) : (sees kind).Avoids S may tags := by simp [sees]
@[simp] theorem avoids_seesIn {mode : Mode} {kind : Kind} :
    (seesIn mode kind).Avoids S may tags ↔ (mode.isCode = false → tags) := by
  simp [seesIn]
@[simp] theorem avoids_seesWord (word : String) : (seesWord word).Avoids S may tags := by
  simp [seesWord]
@[simp] theorem avoids_leaf {kind : Kind} :
    (leaf kind).Avoids S may tags ↔ kind ∉ S := by simp [leaf]
@[simp] theorem avoids_wordLeaf {keyword kind : Kind} :
    (wordLeaf keyword kind).Avoids S may tags ↔ kind ∉ S := by
  simp [wordLeaf]
@[simp] theorem avoids_eat (kind : Kind) : (eat kind).Avoids S may tags := by simp [eat]
@[simp] theorem avoids_eatWord (keyword : Kind) : (eatWord keyword).Avoids S may tags := by
  simp [eatWord]
@[simp] theorem avoids_callIn {field : Field} {rule : Rule} :
    (callIn field rule).Avoids S may tags ↔ (rule = .statement → may) := by
  simp [callIn]

end

section
variable {S : List Kind} {may tags : Prop} [Kind.Special S]

@[simp] theorem avoids_missing (error : SyntaxError) : (missing error).Avoids S may tags := by
  simp +decide [missing]
@[simp] theorem avoids_reject (error : SyntaxError) : (reject error).Avoids S may tags := by
  simp +decide [reject]
@[simp] theorem avoids_rejectUnless (stops : KindSet) (error : SyntaxError) :
    (rejectUnless stops error).Avoids S may tags := by
  simp [rejectUnless]
@[simp] theorem avoids_expectIn {mode : Mode} {kind : Kind} :
    (expectIn mode kind).Avoids S may tags ↔ (mode.isCode = false → tags) := by
  simp +contextual [expectIn]
@[simp] theorem avoids_expect (kind : Kind) : (expect kind).Avoids S may tags := by simp [expect]
@[simp] theorem avoids_expectWord (keyword : Kind) : (expectWord keyword).Avoids S may tags := by
  simp [expectWord]
end

end Parser

namespace Grammar

open ActionScript.Parser

variable {S : List Kind} {may tags : Prop}

/-! ## Routines that leave the kinds to others -/

@[simp] theorem avoids_expression (field : Field) : (expression field).Avoids S may tags := by
  simp [expression]

@[simp] theorem avoids_assignment (field : Field) : (assignment field).Avoids S may tags := by
  simp [assignment]

@[simp] theorem avoids_typeIn (field : Field) : (typeIn field).Avoids S may tags := by
  simp [typeIn]

@[simp] theorem avoids_typeList : typeList.Avoids S may tags := by
  simp [typeList]

@[simp] theorem avoids_statementIn (hmay : may) (field : Field) :
    (statementIn field).Avoids S may tags := by
  simp [statementIn, hmay]

@[simp] theorem avoids_opensVector : opensVector.Avoids S may tags :=
  avoids_of_onlyLooks (Setting.onlyLooks_closesVector _ _ _)

@[simp] theorem avoids_nextDeclaration? : nextDeclaration?.Avoids S may tags :=
  avoids_of_onlyLooks (Setting.onlyLooks_declarationWord? _ _)

@[simp] theorem avoids_seesAnnotatedDeclaration : seesAnnotatedDeclaration.Avoids S may tags :=
  avoids_of_onlyLooks Setting.onlyLooks_seesAnnotatedDeclaration

@[simp] theorem avoids_behindMetadata? (i : Nat) : (behindMetadata? i).Avoids S may tags :=
  avoids_of_onlyLooks (Setting.onlyLooks_behindMetadata? i)

@[simp] theorem avoids_accessor : accessor.Avoids S may tags := by
  simp [accessor]

@[simp] theorem avoids_modifier {kind : Kind} (h : kind ∉ S) (g : Glimpse) :
    (modifier kind g).Avoids S may tags := by
  unfold modifier
  split <;> simp [h]

@[simp] theorem avoids_clause? {kind : Kind} (h : kind ∉ S) (keyword : Kind) (field : Field)
    {body : Parser Unit} (hbody : body.Avoids S may tags) :
    (clause? keyword kind field body).Avoids S may tags := by
  simp [clause?, h, hbody]

@[simp] theorem avoids_checkName (opening closing : Option Text) :
    (checkName opening closing).Avoids S may tags := by
  unfold checkName
  split <;> simp

variable [Kind.Special S]

/-! ## Names, lists and types -/

@[simp] theorem avoids_name (field : Field) (stops : List Kind) :
    (name field stops).Avoids S may tags := by
  simp +decide [name]

@[simp] theorem avoids_qualifiedName (field : Field) (wildcard : Bool) :
    (qualifiedName field wildcard).Avoids S may tags := by
  simp +decide [qualifiedName, nameTail]

@[simp] theorem avoids_delimited (b : Brackets) {item : Parser Bool} (h : item.Avoids S may tags) :
    (delimited b item).Avoids S may tags := by
  simp [delimited, h]

@[simp] theorem avoids_semicolon : semicolon.Avoids S may tags := by
  simp +decide [semicolon, skipStatement]

@[simp] theorem avoids_braced {kind : Kind} (h : kind ∉ S) (hmay : may) :
    (braced kind).Avoids S may tags := by
  simp [braced, statements, h, hmay]

@[simp] theorem avoids_block (hmay : may) : block.Avoids S may tags :=
  avoids_braced (Kind.not_mem_special rfl) hmay

@[simp] theorem avoids_typeAscription? (field : Field) :
    (typeAscription? field).Avoids S may tags := by
  simp +decide [typeAscription?, typeAscription]

@[simp] theorem avoids_typeArguments : typeArguments.Avoids S may tags := by
  simp +decide [typeArguments]

@[simp] theorem avoids_typeName : typeName.Avoids S may tags := by
  simp +decide [typeName]

theorem avoids_typeRule : typeRule.Avoids S may tags := by
  refine ⟨by simp, fun g => ?_⟩
  dsimp only
  split <;> simp +decide

@[simp] theorem avoids_parameter : parameter.Avoids S may tags := by
  simp +decide [parameter]

@[simp] theorem avoids_restParameter : restParameter.Avoids S may tags := by
  simp +decide [restParameter]

@[simp] theorem avoids_parameterList : parameterList.Avoids S may tags := by
  simp only [parameterList, avoids_bind, avoids_nodeOf, avoids_take, avoids_loop, avoids_peek,
    avoids_expect, avoids_label, true_and, and_true, implies_true]
  refine ⟨fun _ k => ?_, Kind.not_mem_special rfl⟩
  split <;> simp

@[simp] theorem avoids_signature : signature.Avoids S may tags := by
  simp [signature]

/-! ## Expressions -/

@[simp] theorem avoids_operation (op : Kind) (p : Precedence) (r : Restrictions) :
    (operation op p r).Avoids S may tags := by
  unfold operation
  split <;> simp [takeOperator]

theorem not_mem_operation (op : Kind) (p : Precedence) (r : Restrictions) :
    (operation op p r).Yields fun kind => kind ∉ S := by
  unfold operation
  split <;> simp +decide [takeOperator, Kind.ite_mem]

theorem avoids_expressionRule (min : Precedence) (r : Restrictions) :
    (expressionRule min r).Avoids S may tags := by
  refine ⟨by simp, fun _ => ⟨by simp, fun g => ?_⟩⟩
  dsimp only
  split
  · simp
  · simp [not_mem_operation]

@[simp] theorem avoids_arguments : arguments.Avoids S may tags := by
  simp +decide [arguments]

@[simp] theorem avoids_elements : elements.Avoids S may tags := by
  simp [elements]

@[simp] theorem avoids_property? (hstring : .stringLiteral ∉ S) : property?.Avoids S may tags := by
  refine ⟨avoids_peek, fun k => avoids_ite.2 ⟨fun _ => ⟨avoids_nodeOf.2 ⟨?_, ?_⟩, ?_⟩, ?_⟩⟩
  · refine ⟨avoids_leaf.2 ?_, by simp⟩
    split <;> simp +decide [hstring]
  · exact Kind.not_mem_special rfl
  · simp
  · simp

@[simp] theorem avoids_objectLiteral (hstring : .stringLiteral ∉ S) :
    objectLiteral.Avoids S may tags := by
  simp +decide [objectLiteral, hstring]

@[simp] theorem avoids_vectorBody : vectorBody.Avoids S may tags := by
  simp [vectorBody]

@[simp] theorem avoids_functionExpression (hmay : may) : functionExpression.Avoids S may tags := by
  simp +decide [functionExpression, hmay]

@[simp] theorem avoids_wordOperand (hmay : may) (g : Glimpse) :
    (wordOperand g).Avoids S may tags := by
  unfold wordOperand
  split <;> simp +decide [hmay]

@[simp] theorem avoids_operand (hstring : .stringLiteral ∉ S) (hregex : .regexLiteral ∉ S)
    (hmay : may) : operand.Avoids S may tags := by
  refine ⟨by simp, fun g => ?_⟩
  dsimp only
  split <;> simp +decide [hmay, hstring, hregex]

@[simp] theorem avoids_propertyName : propertyName.Avoids S may tags := by
  refine ⟨avoids_peek, fun k => ⟨?_, fun _ => avoids_label _⟩⟩
  split <;> simp +decide

@[simp] theorem avoids_link (hupdate : .updateExpr ∉ S) (calls : Bool) :
    (link calls).Avoids S may tags := by
  refine ⟨by simp, fun g => ?_⟩
  dsimp only
  split <;> simp +decide [hupdate]

@[simp] theorem avoids_chain (hupdate : .updateExpr ∉ S) (calls : Bool) :
    (chain calls).Avoids S may tags := avoids_link hupdate calls

theorem avoids_constructionRule (hupdate : .updateExpr ∉ S) (hstring : .stringLiteral ∉ S)
    (hregex : .regexLiteral ∉ S) (hmay : may) : constructionRule.Avoids S may tags := by
  simp +decide [constructionRule, hupdate, hstring, hregex, hmay]

theorem avoids_unaryRule (hupdate : .updateExpr ∉ S) (hstring : .stringLiteral ∉ S)
    (hregex : .regexLiteral ∉ S) (hmay : may) : unaryRule.Avoids S may tags := by
  refine ⟨by simp, fun g => ?_⟩
  dsimp only
  split
  · simp [chained, hupdate, hstring, hregex, hmay]
  · simp only [takeOperator, avoids_nodeOf, avoids_bind, avoids_ite, avoids_take, avoids_takeWord,
      avoids_callIn, implies_true, and_true, true_and, Kind.ite_mem]
    simp +decide [hupdate]

/-! ## Elements -/

section
variable (hexpr : .xmlExpr ∉ S) (htags : tags)
include hexpr htags

@[simp] theorem avoids_interpolation (field : Field) : (interpolation field).Avoids S may tags := by
  simp +decide [interpolation, hexpr, htags]

@[simp] theorem avoids_tagName : tagName.Avoids S may tags := by
  refine ⟨fun _ => htags, fun g => ?_⟩
  dsimp only
  split <;> simp [hexpr, htags]

@[simp] theorem avoids_tagName? : tagName?.Avoids S may tags := by
  simp [tagName?, hexpr, htags]

@[simp] theorem avoids_tagAttribute : tagAttribute.Avoids S may tags := by
  simp only [tagAttribute, avoids_bind, avoids_nodeOf, avoids_take, avoids_expectIn, avoids_when,
    avoids_look, avoids_label, true_and, and_true, implies_true]
  refine ⟨fun _ => ⟨fun _ => htags, fun _ _ => ⟨fun _ => htags, fun g => ?_⟩⟩,
    Kind.not_mem_special rfl⟩
  split <;> simp [hexpr, htags]

@[simp] theorem avoids_attributes : attributes.Avoids S may tags := by
  refine ⟨fun _ => htags, fun g => ?_⟩
  dsimp only
  split <;> simp [hexpr, htags]

@[simp] theorem avoids_startTag : startTag.Avoids S may tags := by
  simp +decide [startTag, hexpr, htags]

@[simp] theorem avoids_content : content.Avoids S may tags := by
  refine ⟨fun _ => htags, fun g => ?_⟩
  dsimp only
  split <;> simp [hexpr, htags]

@[simp] theorem avoids_endTag (opening : Option Text) : (endTag opening).Avoids S may tags := by
  simp +decide [endTag, hexpr, htags]

theorem avoids_elementRule : elementRule.Avoids S may tags := by
  simp +decide [elementRule, hexpr, htags]

end

/-! ## Declarations -/

@[simp] theorem avoids_metadataArgument? : metadataArgument?.Avoids S may tags := by
  simp +decide [metadataArgument?]

@[simp] theorem avoids_metadataRun : metadataRun.Avoids S may tags := by
  simp +decide [metadataRun, metadata]

@[simp] theorem avoids_modifiers (h : .propertyAttribute ∉ S) (keyword : Kind) :
    (modifiers keyword).Avoids S may tags := by
  simp +decide [modifiers, h]

@[simp] theorem avoids_memberBody {kind : Kind} (h : kind ∉ S) (hmay : may) :
    (memberBody kind).Avoids S may tags := by
  simp [memberBody, h, hmay]

@[simp] theorem avoids_classBody (hmay : may) : classBody.Avoids S may tags := by
  simp +decide [classBody, hmay]

@[simp] theorem avoids_interfaceBody (hmay : may) : interfaceBody.Avoids S may tags := by
  simp +decide [interfaceBody, hmay]

@[simp] theorem avoids_functionBody (hmay : may) : functionBody.Avoids S may tags := by
  simp [functionBody, hmay]

@[simp] theorem avoids_declarators (r : Restrictions) : (declarators r).Avoids S may tags := by
  simp +decide [declarators]

@[simp] theorem avoids_variableBody (keyword : Kind) :
    (variableBody keyword).Avoids S may tags := by
  simp [variableBody]

@[simp] theorem avoids_namespaceBody : namespaceBody.Avoids S may tags := by
  simp [namespaceBody]

/-- The kinds of declarations of which more is said. -/
def declarationKinds : List Kind :=
  [.interfaceDecl, .functionDecl, .constantDecl, .namespaceDecl, .variableDecl]

@[simp] theorem avoids_declarationBody (hattribute : .propertyAttribute ∉ S) (hmay : may)
    (keyword : Kind) : (declarationBody keyword).Avoids S may tags := by
  unfold declarationBody
  rw [avoids_bind]
  refine ⟨avoids_modifiers hattribute keyword, fun _ => ?_⟩
  split <;> simp +decide [hmay]

theorem not_mem_declarationBody (hkinds : ∀ k ∈ declarationKinds, k ∉ S) (keyword : Kind) :
    (declarationBody keyword).Yields fun kind => kind ∉ S := by
  simp only [declarationKinds, List.forall_mem_cons] at hkinds
  obtain ⟨hinterface, hfunction, hconstant, hnamespace, hvariable, -⟩ := hkinds
  unfold declarationBody
  rw [yields_bind]
  split <;> simp +decide [hinterface, hfunction, hconstant, hnamespace, hvariable]

@[simp] theorem avoids_declaration (hattribute : .propertyAttribute ∉ S)
    (hkinds : ∀ k ∈ declarationKinds, k ∉ S) (hmay : may) (keyword : Kind) :
    (declaration keyword).Avoids S may tags := by
  simp [declaration, hattribute, hmay, not_mem_declarationBody hkinds]

theorem not_mem_annotated (hkinds : ∀ k ∈ declarationKinds, k ∉ S) :
    annotated.Closes fun kind => kind ∉ S := by
  rw [annotated, closes_node, yields_bind]
  refine .of_forall (fun _ => ?_) _
  rw [yields_bind]
  refine .of_forall (fun k => ?_) _
  split
  · exact not_mem_declarationBody hkinds _
  · simp +decide

@[simp] theorem avoids_annotated (hattribute : .propertyAttribute ∉ S)
    (hkinds : ∀ k ∈ declarationKinds, k ∉ S) (hmay : may) : annotated.Avoids S may tags := by
  refine ⟨?_, not_mem_annotated hkinds⟩
  simp only [avoids_bind, avoids_metadataRun, avoids_nextDeclaration?, true_and]
  intro _ k
  split <;> simp [hattribute, hmay]

@[simp] theorem avoids_variableHead (hkinds : ∀ k ∈ declarationKinds, k ∉ S) :
    variableHead.Avoids S may tags := by
  have hconst : Kind.constantDecl ∉ S := hkinds _ (by decide)
  have hvar : Kind.variableDecl ∉ S := hkinds _ (by decide)
  simp [variableHead, hconst, hvar, Kind.ite_mem]

@[simp] theorem avoids_packageDeclaration (hmay : may) : packageDeclaration.Avoids S may tags := by
  simp +decide [packageDeclaration, hmay]

@[simp] theorem avoids_importStatement (h : .importStmt ∉ S) :
    importStatement.Avoids S may tags := by
  simp [importStatement, h]

@[simp] theorem avoids_includeDirective (h : .includeDirective ∉ S) (hstring : .stringLiteral ∉ S) :
    includeDirective.Avoids S may tags := by
  simp +decide [includeDirective, h, hstring]

@[simp] theorem avoids_useNamespaceDirective (h : .useNamespaceDirective ∉ S) :
    useNamespaceDirective.Avoids S may tags := by
  simp [useNamespaceDirective, h]

/-! ## Statements -/

@[simp] theorem avoids_expressionStatement (h : .exprStmt ∉ S) :
    expressionStatement.Avoids S may tags := by
  simp [expressionStatement, h]

@[simp] theorem avoids_parenthesized (field : Field) : (parenthesized field).Avoids S may tags := by
  simp [parenthesized]

@[simp] theorem avoids_ifStatement (h : .ifStmt ∉ S) (hmay : may) :
    ifStatement.Avoids S may tags := by
  simp +decide [ifStatement, h, hmay]

@[simp] theorem avoids_switchClause (hmay : may) (g : Glimpse) :
    (switchClause g).Avoids S may tags := by
  simp +decide [switchClause, clauseStatements, hmay]

@[simp] theorem avoids_switchStatement (hmay : may) : switchStatement.Avoids S may tags := by
  simp +decide [switchStatement, hmay]

/-- The kinds of statements that are loops. -/
def forKinds : List Kind := [.forStmt, .forInStmt, .forEachInStmt]

@[simp] theorem avoids_forHead (hkinds : ∀ k ∈ declarationKinds, k ∉ S) :
    forHead.Avoids S may tags := by
  simp [forHead, avoids_variableHead hkinds]

@[simp] theorem avoids_forStatement (h : ∀ k ∈ forKinds, k ∉ S)
    (hkinds : ∀ k ∈ declarationKinds, k ∉ S) (hmay : may) : forStatement.Avoids S may tags := by
  simp only [forKinds, List.forall_mem_cons] at h
  obtain ⟨hfor, hin, heach, -⟩ := h
  simp [forStatement, avoids_forHead hkinds, hmay, hfor, hin, heach, Kind.ite_mem]

@[simp] theorem avoids_whileStatement (h : .whileStmt ∉ S) (hmay : may) :
    whileStatement.Avoids S may tags := by
  simp [whileStatement, h, hmay]

@[simp] theorem avoids_doStatement (hmay : may) : doStatement.Avoids S may tags := by
  simp +decide [doStatement, hmay]

@[simp] theorem avoids_withStatement (h : .withStmt ∉ S) (hmay : may) :
    withStatement.Avoids S may tags := by
  simp [withStatement, h, hmay]

@[simp] theorem avoids_bodyBlock (hmay : may) : bodyBlock.Avoids S may tags := by
  simp [bodyBlock, hmay]

@[simp] theorem avoids_tryStatement (hmay : may) : tryStatement.Avoids S may tags := by
  simp +decide [tryStatement, catchClauses, catchClause, hmay]

@[simp] theorem avoids_jumpStatement {kind : Kind} (h : kind ∉ S) (keyword : Kind) :
    (jumpStatement keyword kind).Avoids S may tags := by
  simp [jumpStatement, h]

@[simp] theorem avoids_valueStatement {kind : Kind} (h : kind ∉ S) (keyword : Kind) :
    (valueStatement keyword kind).Avoids S may tags := by
  simp [valueStatement, h]

@[simp] theorem avoids_labeledStatement (h : .labeledStmt ∉ S) (hmay : may) :
    labeledStatement.Avoids S may tags := by
  simp [labeledStatement, h, hmay]

@[simp] theorem avoids_plainWordStatement (hattribute : .propertyAttribute ∉ S)
    (hkinds : ∀ k ∈ declarationKinds, k ∉ S) (hexpression : .exprStmt ∉ S)
    (hlabeled : .labeledStmt ∉ S) (hmay : may) : plainWordStatement.Avoids S may tags := by
  refine ⟨avoids_nextDeclaration?, fun k => ?_⟩
  dsimp only
  split
  · exact avoids_declaration hattribute hkinds hmay _
  · simp [hexpression, hlabeled, hmay]

/-! ## Kinds of no node -/

theorem avoids_wordStatement_unmade (g : Glimpse) :
    (wordStatement g).Avoids Kind.unmade True True := by
  unfold wordStatement
  split <;> simp +decide

/-- **No rule makes a node of these kinds.** -/
theorem avoids_rule_unmade (rule : Rule) : (Grammar.rule rule).Avoids Kind.unmade True True := by
  cases rule with
  | statement =>
    refine ⟨by simp, fun g => ?_⟩
    dsimp only
    split
    case h_4 => exact avoids_wordStatement_unmade _
    all_goals simp +decide
  | expression min r => exact avoids_expressionRule min r
  | unary => exact avoids_unaryRule (by decide) (by decide) (by decide) trivial
  | construction => exact avoids_constructionRule (by decide) (by decide) (by decide) trivial
  | type => exact avoids_typeRule
  | element => exact avoids_elementRule (by decide) trivial

theorem avoids_sourceFile_unmade : sourceFile.Avoids Kind.unmade True True := by
  simp +decide [sourceFile]

end Grammar

/-- With no level left the rules make error nodes only, so they keep what concerns others. -/
theorem Setting.retains_zero [Alphabet] {S : List Kind} [Kind.Special S]
    {P : Kind → List Shape → Prop} {q : Prop}
    (hP : ∀ kind children, kind ∉ S → P kind children) (limits : Limits) :
    (atDepth limits 0).Retains P q := by
  intro rule s hs htame
  have hgiven : (givingUp limits).Retains P q := fun _ _ _ h => (by cases h.aborted)
  have havoids : (Parser.reject .nestingTooDeep).Avoids S True True := Parser.avoids_reject _
  have hkeeps := keeps_of_avoids (s := s) hP hgiven havoids
  change (State.apply limits 0 rule s).Tame q at htame
  change (State.apply limits 0 rule s).Every P
  rw [apply_zero] at htame ⊢
  exact hkeeps hs htame

end ActionScript
