import ActionScript.Grammar.Expressions
import ActionScript.Proofs.Grouping

/-!
# Parsers that group nothing

Few routines make nodes for operators, accesses and calls.  That all others do not is seen from
their text alone, whatever they are run on, so it is a property of parsers.

* `Parser.Plain`: all nodes that the parser makes by itself are of kinds without a condition on
  their children.  `Parser.Yields` bounds the kinds, `Parser.Labels` the slots it fills.
  `Parser.Tops` says what it ends with.
* `State.Clean`, `State.Fits`, `State.EndsAtLeast`: what is known of the children gathered so far.
* `Setting.grouped_after`: **plain parsers keep shapes grouped**, if the rules do.
-/

set_option autoImplicit false

namespace ActionScript

/-- Nodes of the kind have no condition on their children. -/
def Kind.isPlain (k : Kind) : Bool := !k.isInfix && operandSlots.all fun slot => slot.1 != k

theorem Kind.isInfix_of_isPlain {k : Kind} (h : k.isPlain = true) : k.isInfix = false := by
  simp only [isPlain, Bool.and_eq_true] at h
  simpa using h.1

@[simp] theorem Kind.isPlain_ite {c : Prop} [Decidable c] {k l : Kind} :
    (if c then k else l).isPlain = true ↔ (c → k.isPlain = true) ∧ (¬c → l.isPlain = true) := by
  split <;> simp [*]

theorem Grouping.of_isPlain {k : Kind} (h : k.isPlain = true) (children : List Face) :
    Grouping k children := by
  have hk := Kind.isInfix_of_isPlain h
  refine ⟨fun hi => ?_, fun p _ hp => ?_, fun p hp => ?_, fun c _ f _ hslot => ?_⟩
  · rw [hk] at hi
    cases hi
  · rw [Face.tierOf?_of_not_isInfix hk] at hp
    cases hp
  · rw [Face.tierOf?_of_not_isInfix hk] at hp
    cases hp
  · simp only [Kind.isPlain, Bool.and_eq_true, List.all_eq_true] at h
    have := h.2 _ hslot
    simp at this

/-! ## Rules -/

/-- If an operator follows that the restrictions allow, it is below the rank. -/
def State.StopsBelow [Alphabet] (s : State) (r : Restrictions) (rank : Nat) : Prop :=
  ∀ op p, Grammar.infixOperator? r (State.glimpse (s.place.next .operator).1) = some (op, p) →
    p.rank < rank

namespace Rule

/-- The lowest rank of what a rule makes. -/
def floor : Rule → Nat
  | .expression min _ => min.rank
  | .unary | .construction | .element => Precedence.unary.rank
  | .statement | .type => 0

/-- An expression ends where no operator follows that it would have taken. -/
def Stops [Alphabet] : Rule → State → Prop
  | .expression min r, s => s.StopsBelow r min.rank
  | _, _ => True

end Rule

/-! ## What parsers can do -/

namespace Parser

/-- Whatever the parser runs on, its value is as `Q` says. -/
def Yields : {α : Type} → Parser α → (α → Prop) → Prop
  | _, .done value, Q => Q value
  | _, .andThen first next, Q => Yields first fun value => Yields (next value) Q
  | _, .look _, Q => ∀ g, Q g
  | _, .ahead _, Q => ∀ g, Q g
  | _, .take _, Q => Q ()
  | _, .takeWord .., Q => Q ()
  | _, .report _, Q => Q ()
  | _, .node body, Q => Yields body fun made => Q made.2
  | _, .wrap .., Q => Q ()
  | _, .label _, Q => Q ()
  | _, .loop _, Q => Q ()
  | _, .call _, Q => Q ()
  | _, .require .., Q => Q ()

/-- The nodes that the parser makes by itself are of plain kinds. -/
def Plain : {α : Type} → Parser α → Prop
  | _, .andThen first next => Plain first ∧ ∀ value, Plain (next value)
  | _, .node body => Plain body ∧ body.Yields fun made => made.1.isPlain = true
  | _, .wrap _ body => Plain body ∧ body.Yields fun kind => kind.isPlain = true
  | _, .loop body => Plain body
  | _, _ => True

/-- The nodes that the parser adds to the open one fill no slots but those in `F`. -/
def Labels (F : Field → Prop) : {α : Type} → Parser α → Prop
  | _, .andThen first next => Labels F first ∧ ∀ value, Labels F (next value)
  | _, .label f => F f
  | _, .loop body => Labels F body
  | _, _ => True

/-- The parser ends with a node that no operator between operands has made. -/
def Tops : {α : Type} → Parser α → Prop
  | _, .andThen _ next => ∀ value, Tops (next value)
  | _, .node body => body.Yields fun made => made.1.isInfix = false
  | _, .call rule => Precedence.unary.rank ≤ rule.floor
  | _, _ => False

variable {α β : Type}

theorem Yields.of_forall {Q : α → Prop} (h : ∀ value, Q value) (p : Parser α) : p.Yields Q := by
  induction p with
  | done value => exact h value
  | andThen first next ihFirst ihNext => exact ihFirst fun value => ihNext value h
  | look mode => exact h
  | ahead distance => exact h
  | node body ih => exact ih fun made => h made.2
  | _ => exact h ()

/-- What is said of every value does not depend on the parser. -/
@[simp] theorem yields_const {P : Prop} {p : Parser α} : (p.Yields fun _ => P) ↔ P := by
  induction p with
  | done value => exact Iff.rfl
  | andThen first next ihFirst ihNext => simp only [Yields, ihNext, ihFirst]
  | look mode => exact ⟨fun h => h ⟨.eof, [], false⟩, fun h _ => h⟩
  | ahead distance => exact ⟨fun h => h ⟨.eof, [], false⟩, fun h _ => h⟩
  | node body ih => exact ih
  | _ => exact Iff.rfl

theorem Yields.val [Alphabet] {Q : α → Prop} {p : Parser α} (h : p.Yields Q) (E : Setting)
    (s : State) :
    Q (E.val p s) := by
  induction p generalizing s with
  | done value => exact h
  | andThen first next ihFirst ihNext => exact ihNext _ (ihFirst h s) _
  | look mode => exact h _
  | ahead distance => exact h _
  | node body ih => exact ih h _
  | _ => exact h

end Parser

/-! ## Clean runs -/

namespace State

/-- The parse has not been stopped, and no rule was cut off for nesting too deeply. -/
def Clean (s : State) : Prop :=
  s.aborted = none ∧ ∀ d ∈ s.reports, d.cause ≠ .syntactic .nestingTooDeep

theorem Leads.clean {s t : State} (h : s.Leads t) (ht : t.Clean) : s.Clean :=
  ⟨h.aborted ht.1, fun d hd => ht.2 d (h.reports.subset hd)⟩

/-- All children of the open node are grouped. -/
def Grouped (s : State) : Prop := ∀ c ∈ s.children, c.Grouped

/-- In each slot of the open node the children are at least of the rank that `least` gives. -/
def Fits (least : Field → Nat) (s : State) : Prop :=
  ∀ c ∈ s.children, ∀ f, c.face.field = some f → c.face.AtLeast (least f)

/-- The last child of the open node is at least of the rank. -/
def EndsAtLeast (s : State) (rank : Nat) : Prop :=
  ∀ c outer, s.children = c :: outer → c.face.AtLeast rank

theorem grouped_takeAs [Alphabet] {s : State} (h : s.Grouped) (limits : Limits) (kind : Kind)
    (field : Option Field) : (s.takeAs limits kind field).Grouped := by
  intro c hc
  rw [takeAs_children, List.mem_cons] at hc
  rcases hc with rfl | hc
  · exact Shape.grouped_token _ _ _ _ _
  · exact h c hc

theorem grouped_labelLast {s : State} (h : s.Grouped) (field : Field) :
    (s.labelLast field).Grouped := by
  cases hs : s.children with
  | nil =>
    rw [labelLast, hs]
    exact h
  | cons c cs =>
    intro d hd
    rw [labelLast_children s field hs, List.mem_cons] at hd
    rcases hd with rfl | hd
    · exact Shape.grouped_withField.2 (h c (by simp [hs]))
    · exact h d (by simp [hs, hd])

/-- A node that is made of grouped children is grouped if its own children are as they should be. -/
theorem grouped_close {s : State} {outer : List Shape} {kind : Kind} (h : s.Grouped)
    (houter : ∀ c ∈ outer, c.Grouped) (hkind : Grouping kind (s.children.reverse.map Shape.face)) :
    (s.close outer kind).Grouped := by
  intro c hc
  rw [close_children, List.mem_cons] at hc
  rcases hc with rfl | hc
  · exact Shape.grouped_node.2 ⟨hkind, fun d hd => h d (List.mem_reverse.1 hd)⟩
  · exact houter c hc

theorem endsAtLeast_close (s : State) (outer : List Shape) {kind : Kind} (h : kind.isInfix = false)
    (rank : Nat) : (s.close outer kind).EndsAtLeast rank := by
  intro c rest hc
  rw [close_children, List.cons.injEq] at hc
  obtain ⟨rfl, -⟩ := hc
  rw [Shape.face]
  exact Face.atLeast_of_none (Face.tierOf?_of_not_isInfix h _) rank

theorem fits_takeAs [Alphabet] {least : Field → Nat} {s : State} (h : s.Fits least)
    (limits : Limits)
    (kind : Kind) (field : Option Field) : (s.takeAs limits kind field).Fits least := by
  intro c hc f hf
  rw [takeAs_children, List.mem_cons] at hc
  rcases hc with rfl | hc
  · rw [Shape.face] at hf ⊢
    exact Face.atLeast_of_none rfl _
  · exact h c hc f hf

theorem fits_labelLast {least : Field → Nat} {s : State} (h : s.Fits least) {field : Field}
    {rank : Nat} (hlast : s.EndsAtLeast rank) (hfield : least field ≤ rank) :
    (s.labelLast field).Fits least := by
  cases hs : s.children with
  | nil =>
    rw [labelLast, hs]
    exact h
  | cons c cs =>
    intro d hd f hf
    rw [labelLast_children s field hs, List.mem_cons] at hd
    rcases hd with rfl | hd
    · rw [Shape.face_withField] at hf ⊢
      obtain rfl : field = f := Option.some.inj hf
      exact (hlast c cs hs).mono hfield
    · exact h d (by simp [hs, hd]) f hf

/-- A node that is just made fills no slot yet. -/
theorem Fits.made {least : Field → Nat} {s t : State} {kind : Kind} {children outer : List Shape}
    (h : s.Fits least) (houter : ∀ c ∈ outer, c ∈ s.children)
    (ht : t.children = .node kind none children :: outer) : t.Fits least := by
  intro c hc f hf
  rw [ht, List.mem_cons] at hc
  rcases hc with rfl | hc
  · rw [Shape.face] at hf
    cases hf
  · exact h c (houter c hc) f hf

/-- The last child, put into a slot of a new node, is grouped there as well. -/
theorem Grouped.wrapped {s : State} (h : s.Grouped) (limits : Limits) (field : Field) :
    (s.enter limits ((s.children.take 1).map (Shape.withField field))).Grouped := by
  intro c hc
  obtain ⟨d, hd, rfl⟩ := List.mem_map.1 hc
  exact Shape.grouped_withField.2 (h d (List.mem_of_mem_take hd))

theorem fits_wrapped {least : Field → Nat} {s : State} {field : Field}
    (h : s.EndsAtLeast (least field)) (limits : Limits) :
    (s.enter limits ((s.children.take 1).map (Shape.withField field))).Fits least := by
  intro c hc f hf
  cases hchildren : s.children with
  | nil =>
    rw [enter_children, hchildren] at hc
    cases hc
  | cons d outer =>
    obtain rfl : c = d.withField field := by simpa [hchildren] using hc
    rw [Shape.face_withField] at hf ⊢
    obtain rfl : field = f := Option.some.inj hf
    exact h d outer hchildren

end State

/-! ## Keeping shapes grouped -/

namespace Setting

variable [Alphabet]

/-- On clean runs the rules make grouped nodes, none looser than it may be. -/
def Groups (E : Setting) : Prop :=
  ∀ (rule : Rule) (s : State), s.Grouped → (E.apply rule s).Clean →
    (E.apply rule s).Grouped ∧ (E.apply rule s).EndsAtLeast rule.floor ∧
      rule.Stops (E.apply rule s)

variable {E : Setting} {s : State} {α : Type}

/-- **Plain parsers keep shapes grouped**, if the rules do. -/
theorem grouped_after (hE : E.Groups) {p : Parser α} (hp : p.Plain) (hs : s.Grouped)
    (hclean : (E.after p s).Clean) : (E.after p s).Grouped := by
  induction p generalizing s with
  | done value => exact hs
  | andThen first next ihFirst ihNext =>
    have hfirst := (E.leads_after (next (E.val first s)) (E.after first s)).clean hclean
    exact ihNext _ (hp.2 _) (ihFirst hp.1 hs hfirst) hclean
  | look mode => exact hs
  | ahead distance => exact hs
  | take field => exact State.grouped_takeAs hs _ _ _
  | takeWord keyword field => exact State.grouped_takeAs hs _ _ _
  | report error =>
    intro c hc
    exact hs c (by simpa using hc)
  | node body ih =>
    rw [after_node] at hclean ⊢
    exact State.grouped_close (ih hp.1 (fun c hc => (by cases hc)) hclean) hs
      (.of_isPlain (hp.2.val E _) _)
  | wrap field body ih =>
    rw [after_wrap] at hclean ⊢
    exact State.grouped_close (ih hp.1 (hs.wrapped _ _) hclean)
      (fun c hc => hs c (List.mem_of_mem_drop hc)) (.of_isPlain (hp.2.val E _) _)
  | label field => exact State.grouped_labelLast hs field
  | loop body ih =>
    refine after_loop_induct (fun t => t.Clean → t.Grouped) (fun _ => hs) (fun _ _ h => h) ?_ hclean
    intro t ht htclean
    exact ih hp (ht ((E.leads_after body t).clean htclean)) htclean
  | call rule => exact (hE rule s hs hclean).1
  | require mode kind => exact hs

/-- What fits into its slots does so still behind a parser that fills no slots with conditions. -/
theorem fits_after {least : Field → Nat} {p : Parser α} (hp : p.Labels fun f => least f = 0)
    (hs : s.Fits least) : (E.after p s).Fits least := by
  induction p generalizing s with
  | andThen first next ihFirst ihNext => exact ihNext _ (hp.2 _) (ihFirst hp.1 hs)
  | take field => exact State.fits_takeAs hs _ _ _
  | takeWord keyword field => exact State.fits_takeAs hs _ _ _
  | report error =>
    intro c hc
    exact hs c (by simpa using hc)
  | node body ih => exact hs.made (fun _ hc => hc) rfl
  | wrap field body ih => exact hs.made (fun _ hc => List.mem_of_mem_drop hc) rfl
  | label field =>
    have hany : s.EndsAtLeast 0 := fun c _ _ => c.face.atLeast_zero
    exact State.fits_labelLast hs hany (Nat.le_of_eq hp)
  | loop body ih =>
    exact after_loop_induct (fun t => t.Fits least) hs (fun _ _ h => h) fun _ => ih hp
  | call rule =>
    obtain ⟨kind, children, hmakes⟩ := E.makes rule s
    exact hs.made (fun _ hc => hc) hmakes
  | _ => exact hs

theorem endsAtLeast_after (hE : E.Groups) {p : Parser α} (hp : p.Plain) (htops : p.Tops)
    (hs : s.Grouped) (hclean : (E.after p s).Clean) :
    (E.after p s).EndsAtLeast Precedence.unary.rank := by
  induction p generalizing s with
  | andThen first next ihFirst ihNext =>
    have hfirst := (E.leads_after (next (E.val first s)) (E.after first s)).clean hclean
    exact ihNext _ (hp.2 _) (htops _) (grouped_after hE hp.1 hs hfirst) hclean
  | node body ih =>
    rw [after_node]
    exact State.endsAtLeast_close _ _ (htops.val E _) _
  | call rule =>
    obtain ⟨-, hends, -⟩ := hE rule s hs hclean
    exact fun c outer hc => (hends c outer hc).mono htops
  | _ => exact htops.elim

end Setting

/-! ## Instructions -/

namespace Parser

section
variable {α β : Type} {F : Field → Prop}

@[simp] theorem plain_pure (a : α) : (pure a : Parser α).Plain := trivial
@[simp] theorem plain_bind {p : Parser β} {f : β → Parser α} :
    (p >>= f).Plain ↔ p.Plain ∧ ∀ value, (f value).Plain := Iff.rfl
@[simp] theorem plain_look (mode : Mode) : (look mode).Plain := trivial
@[simp] theorem plain_ahead (n : Nat) : (ahead n).Plain := trivial
@[simp] theorem plain_take (field : Option Field) : (take field).Plain := trivial
@[simp] theorem plain_takeWord (keyword : Kind) (field : Option Field) :
    (takeWord keyword field).Plain := trivial
@[simp] theorem plain_report (error : SyntaxError) : (report error).Plain := trivial
@[simp] theorem plain_label (field : Field) : (label field).Plain := trivial
@[simp] theorem plain_loop {body : Parser Bool} : (loop body).Plain ↔ body.Plain := Iff.rfl
@[simp] theorem plain_call (rule : Rule) : (call rule).Plain := trivial
@[simp] theorem plain_require (mode : Mode) (kind : Kind) : (require mode kind).Plain := trivial

@[simp] theorem plain_ite {c : Prop} [Decidable c] {p q : Parser α} :
    (if c then p else q).Plain ↔ (c → p.Plain) ∧ (¬c → q.Plain) := by
  split <;> simp [*]

@[simp] theorem yields_pure {a : α} {Q : α → Prop} : (pure a : Parser α).Yields Q ↔ Q a := Iff.rfl
@[simp] theorem yields_bind {p : Parser β} {f : β → Parser α} {Q : α → Prop} :
    (p >>= f).Yields Q ↔ p.Yields fun value => (f value).Yields Q := Iff.rfl

@[simp] theorem yields_ite {c : Prop} [Decidable c] {p q : Parser α} {Q : α → Prop} :
    (if c then p else q).Yields Q ↔ (c → p.Yields Q) ∧ (¬c → q.Yields Q) := by
  split <;> simp [*]

@[simp] theorem plain_node {body : Parser (Kind × α)} :
    (node body).Plain ↔ body.Plain ∧ body.Yields fun made => made.1.isPlain = true := Iff.rfl

@[simp] theorem plain_nodeOf {kind : Kind} {body : Parser Unit} :
    (nodeOf kind body).Plain ↔ body.Plain ∧ kind.isPlain = true := by
  simp [nodeOf]

@[simp] theorem plain_when {c : Bool} {p : Parser Unit} :
    (when c p).Plain ↔ (c = true → p.Plain) := by
  simp [when]

@[simp] theorem labels_pure (a : α) : (pure a : Parser α).Labels F := trivial
@[simp] theorem labels_bind {p : Parser β} {f : β → Parser α} :
    (p >>= f).Labels F ↔ p.Labels F ∧ ∀ value, (f value).Labels F := Iff.rfl
@[simp] theorem labels_look (mode : Mode) : (look mode).Labels F := trivial
@[simp] theorem labels_take (field : Option Field) : (take field).Labels F := trivial
@[simp] theorem labels_takeWord (keyword : Kind) (field : Option Field) :
    (takeWord keyword field).Labels F := trivial
@[simp] theorem labels_report (error : SyntaxError) : (report error).Labels F := trivial
@[simp] theorem labels_node (body : Parser (Kind × α)) : (node body).Labels F := trivial
@[simp] theorem labels_label {field : Field} : (label field).Labels F ↔ F field := Iff.rfl
@[simp] theorem labels_call (rule : Rule) : (call rule).Labels F := trivial
@[simp] theorem labels_require (mode : Mode) (kind : Kind) : (require mode kind).Labels F := trivial

@[simp] theorem labels_ite {c : Prop} [Decidable c] {p q : Parser α} :
    (if c then p else q).Labels F ↔ (c → p.Labels F) ∧ (¬c → q.Labels F) := by
  split <;> simp [*]

@[simp] theorem tops_bind {p : Parser β} {f : β → Parser α} :
    (p >>= f).Tops ↔ ∀ value, (f value).Tops := Iff.rfl

@[simp] theorem tops_call {rule : Rule} :
    (call rule).Tops ↔ Precedence.unary.rank ≤ rule.floor := Iff.rfl

@[simp] theorem tops_ite {c : Prop} [Decidable c] {p q : Parser α} :
    (if c then p else q).Tops ↔ (c → p.Tops) ∧ (¬c → q.Tops) := by
  split <;> simp [*]

@[simp] theorem tops_nodeOf {kind : Kind} {body : Parser Unit} :
    (nodeOf kind body).Tops ↔ kind.isInfix = false := by
  change ((body >>= fun _ => pure (kind, ())).Yields fun made => made.1.isInfix = false) ↔ _
  simp

end

end Parser

end ActionScript
