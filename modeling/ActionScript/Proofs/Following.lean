import ActionScript.Proofs.Avoiding
import ActionScript.Proofs.Trimming

/-!
# What stands behind a node

Some of what is said of a node concerns the text behind it, which a run has not read yet when it
makes the node.  But what has been gathered and what is left make up the same text all the time, so
the text behind a node is known from the start.

* `Shape.EveryBefore`: a condition on every node of a shape with the text behind it.
* `State.Lays`: a run loses no text, and keeps such a condition.
* `Setting.lays_of_avoids`: **parsers that make no node of some kinds keep a condition on those**,
  if the rules do.
* `Tree.Node.Stands`, `Tree.Node.stands_of_parseWithin`: the nodes of a tree with the text behind
  them.
-/

set_option autoImplicit false

namespace ActionScript

/-! ## Shapes -/

namespace Shape

variable {P : Kind → List Shape → Text → Prop}

mutual

/-- What is said of a node's kind, its children and the text behind it holds of every node of a
shape that stands in front of `rest`. -/
def EveryBefore (P : Kind → List Shape → Text → Prop) : Shape → Text → Prop
  | .token .., _ => True
  | .node kind _ children, rest => P kind children rest ∧ EveryInBefore P children rest

/-- The same, of every node of several shapes. -/
def EveryInBefore (P : Kind → List Shape → Text → Prop) : List Shape → Text → Prop
  | [], _ => True
  | s :: ss, rest => s.EveryBefore P (sourceAll ss ++ rest) ∧ EveryInBefore P ss rest

end

variable {ss ts : List Shape} {rest : Text}

@[simp] theorem everyBefore_token (kind : Kind) (field : Option Field) (leading : List Trivia)
    (text : Text) (trailing : List Trivia) :
    (token kind field leading text trailing).EveryBefore P rest := by
  rw [EveryBefore]
  trivial

theorem everyBefore_node {kind : Kind} {field : Option Field} :
    (node kind field ss).EveryBefore P rest ↔ P kind ss rest ∧ EveryInBefore P ss rest := by
  rw [EveryBefore]

@[simp] theorem everyInBefore_nil : EveryInBefore P [] rest := by
  rw [EveryInBefore]
  trivial

theorem everyInBefore_cons {s : Shape} : EveryInBefore P (s :: ss) rest ↔
    s.EveryBefore P (sourceAll ss ++ rest) ∧ EveryInBefore P ss rest := by
  rw [EveryInBefore]

theorem everyInBefore_append : EveryInBefore P (ss ++ ts) rest ↔
    EveryInBefore P ss (sourceAll ts ++ rest) ∧ EveryInBefore P ts rest := by
  induction ss with
  | nil => simp
  | cons s ss ih =>
    rw [List.cons_append, everyInBefore_cons, everyInBefore_cons, ih, sourceAll_append,
      List.append_assoc, and_assoc]

@[simp] theorem everyInBefore_singleton {s : Shape} :
    EveryInBefore P [s] rest ↔ s.EveryBefore P rest := by
  simp [everyInBefore_cons, sourceAll]

@[simp] theorem sourceAll_singleton (s : Shape) : sourceAll [s] = s.source := by
  simp [sourceAll]

@[simp] theorem everyBefore_withField {f : Field} {s : Shape} :
    (s.withField f).EveryBefore P rest ↔ s.EveryBefore P rest := by
  cases s <;> simp [withField, everyBefore_node]

end Shape

/-! ## Runs -/

namespace State

variable {P : Kind → List Shape → Text → Prop} {s t u : State}

/-- What has been gathered in the open node, and what is left. -/
def ahead (s : State) : Text := Shape.sourceAll s.children.reverse ++ s.place.rest

/-- The condition holds of every node made so far. -/
def EveryBefore (P : Kind → List Shape → Text → Prop) (s : State) : Prop :=
  Shape.EveryInBefore P s.children.reverse s.place.rest

/-- No text is lost, and the condition is kept, unless the parse is stopped. -/
def Lays (P : Kind → List Shape → Text → Prop) (s t : State) : Prop :=
  t.aborted = none → s.aborted = none ∧ t.ahead = s.ahead ∧ (s.EveryBefore P → t.EveryBefore P)

namespace Lays

theorem of_eq (hc : t.children = s.children) (hp : t.place = s.place) (ha : t.aborted = s.aborted) :
    s.Lays P t := by
  intro h
  rw [State.ahead, State.ahead, EveryBefore, EveryBefore, hc, hp]
  exact ⟨ha ▸ h, rfl, id⟩

theorem trans (h₁ : s.Lays P t) (h₂ : t.Lays P u) : s.Lays P u := by
  intro h
  obtain ⟨ht, htext, hevery⟩ := h₂ h
  obtain ⟨hs, htext', hevery'⟩ := h₁ ht
  exact ⟨hs, htext.trans htext', fun h => hevery (hevery' h)⟩

/-- The text of a token that is taken is no longer left. -/
theorem takeAs [Alphabet] (s : State) (limits : Limits) (kind : Kind) (field : Option Field) :
    s.Lays P (s.takeAs limits kind field) := by
  intro h
  obtain ⟨ha, hp, -⟩ := takes_takeAs s limits kind field h
  have hsource : (Shape.token kind field s.token.leading s.token.text s.token.trailing).source ++
      (s.place.next s.mode).2.rest = s.place.rest := by
    rw [Shape.source, ← s.place.next_append s.mode]
    rfl
  refine ⟨ha, ?_, fun hs => ?_⟩
  · rw [State.ahead, takeAs_children, hp, List.reverse_cons, Shape.sourceAll_append,
      List.append_assoc, Shape.sourceAll_singleton, hsource, State.ahead]
  · rw [EveryBefore, takeAs_children, hp, List.reverse_cons, Shape.everyInBefore_append,
      Shape.sourceAll_singleton, hsource]
    exact ⟨hs, by simp⟩

theorem labelLast (s : State) (field : Field) : s.Lays P (s.labelLast field) := by
  cases hs : s.children with
  | nil =>
    have hsame : s.labelLast field = s := by rw [State.labelLast, hs]
    rw [hsame]
    exact .of_eq rfl rfl rfl
  | cons c cs =>
    intro h
    rw [State.ahead, State.ahead, EveryBefore, EveryBefore, labelLast_children s field hs, hs,
      labelLast_place, List.reverse_cons, List.reverse_cons, Shape.sourceAll_append,
      Shape.sourceAll_append, Shape.everyInBefore_append, Shape.everyInBefore_append]
    simpa using h

/-- A node around what is gathered in it, the last child of the node outside among that or not. -/
theorem close {limits : Limits} {inner last outer : List Shape} {kind : Kind}
    (h : (s.enter limits inner).Lays P t) (hs : s.children = last ++ outer)
    (hsource : Shape.sourceAll inner.reverse = Shape.sourceAll last.reverse)
    (hevery : ∀ rest, Shape.EveryInBefore P last.reverse rest →
      Shape.EveryInBefore P inner.reverse rest)
    (hkind : t.aborted = none → P kind t.children.reverse t.place.rest) :
    s.Lays P (t.close outer kind) := by
  intro ht
  obtain ⟨ha, htext, hinner⟩ := h ht
  obtain ⟨hplace, ha⟩ : (s.enter limits inner).place = s.place ∧ s.aborted = none := by
    rcases s.enter_cases limits inner with ⟨hp, -, ha'⟩ | ⟨hna, -⟩
    · exact ⟨hp, ha' ▸ ha⟩
    · exact absurd ha hna
  rw [State.ahead, State.ahead, enter_children, hplace, hsource] at htext
  rw [EveryBefore, enter_children, hplace] at hinner
  rw [State.ahead, State.ahead, EveryBefore, EveryBefore, close_children, close_place, hs,
    List.reverse_cons, List.reverse_append, Shape.sourceAll_append, Shape.sourceAll_append,
    Shape.everyInBefore_append, Shape.everyInBefore_append, Shape.sourceAll_singleton, Shape.source,
    List.append_assoc, List.append_assoc, htext, Shape.everyInBefore_singleton,
    Shape.everyBefore_node]
  exact ⟨ha, rfl, fun ⟨houter, hlast⟩ => ⟨houter, hkind ht, hinner (hevery _ hlast)⟩⟩

end Lays

end State

namespace Setting

variable [Alphabet] {E : Setting} {P : Kind → List Shape → Text → Prop} {s : State} {α : Type}

/-- The rules lose no text and keep the condition. -/
def Lays (E : Setting) (P : Kind → List Shape → Text → Prop) : Prop :=
  ∀ (rule : Rule) (s : State), s.Lays P (E.apply rule s)

theorem lays_node {body : Parser (Kind × α)}
    (hbody : (s.enter E.limits []).Lays P (E.after body (s.enter E.limits [])))
    (hkind : (E.after body (s.enter E.limits [])).aborted = none →
      P (E.val body (s.enter E.limits [])).1 (E.after body (s.enter E.limits [])).children.reverse
        (E.after body (s.enter E.limits [])).place.rest) :
    s.Lays P (E.after (.node body) s) :=
  hbody.close (List.nil_append _).symm rfl (fun _ h => h) hkind

/-- **A parser that makes no special nodes keeps a condition on those with the text behind them**,
if the rules do. -/
theorem lays_of_avoids {S : List Kind} {may tags : Prop}
    (hP : ∀ kind children rest, kind ∉ S → P kind children rest) (hE : E.Lays P) {p : Parser α}
    (hp : p.Avoids S may tags) : s.Lays P (E.after p s) := by
  induction p generalizing s with
  | done value => exact .of_eq rfl rfl rfl
  | andThen first next ihFirst ihNext => exact (ihFirst hp.1).trans (ihNext _ (hp.2 _))
  | look mode => exact .of_eq rfl rfl rfl
  | ahead distance => exact .of_eq rfl rfl rfl
  | take field => exact .takeAs _ _ _ _
  | takeWord keyword field => exact .takeAs _ _ _ _
  | report error => exact .of_eq (by simp) (by simp) (by simp)
  | node body ih => exact lays_node (ih hp.1) fun _ => hP _ _ _ (hp.2.val E _)
  | wrap field body ih =>
    rw [after_wrap]
    refine (ih hp.1).close (List.take_append_drop 1 _).symm ?_ (fun rest h => ?_) fun _ =>
      hP _ _ _ (hp.2.val E _)
    · cases s.children <;> simp
    · cases hs : s.children with
      | nil => simp
      | cons c cs => simpa [hs] using h
  | label field => exact .labelLast s field
  | loop body ih =>
    exact after_loop_induct (fun t => s.Lays P t) (.of_eq rfl rfl rfl)
      (fun t stalled h => h.trans (.of_eq rfl rfl rfl)) fun t h => h.trans (ih hp)
  | call rule => exact hE rule s
  | require mode kind => exact .of_eq rfl rfl rfl

/-- With no level left the rules make error nodes only. -/
theorem lays_zero {S : List Kind} [Kind.Special S]
    (hP : ∀ kind children rest, kind ∉ S → P kind children rest) (limits : Limits) :
    (atDepth limits 0).Lays P := by
  intro rule s
  have hgiven : (givingUp limits).Lays P := fun _ _ h => (by cases h)
  have havoids : (Parser.reject .nestingTooDeep).Avoids S True True := Parser.avoids_reject _
  change s.Lays P (State.apply limits 0 rule s)
  rw [apply_zero]
  exact lays_of_avoids hP hgiven havoids

end Setting

/-! ## Trees -/

namespace Tree.Node

variable {P : Kind → List Shape → Text → Prop} {text : Text}

/-- A node was laid out from shapes that make up the text in a place, and is as `P` says. -/
def Stands (P : Kind → List Shape → Text → Prop) (text : Text) (n : Node) : Prop :=
  ∃ (front rest : Text) (p : Progress) (kids : List Shape),
    text = front ++ (Shape.sourceAll kids ++ rest) ∧ p.offset = front.size ∧
    n.children = (p.layAll kids).1 ∧ P n.kind kids rest

mutual

theorem stands_of_mem_nodesOf {n m : Node} {slot : Nat} {p : Progress}
    {front rest : Text} {s : Shape} (htext : text = front ++ (s.source ++ rest))
    (hp : p.offset = front.size) (h : s.EveryBefore P rest) (hm : m ∈ n.nodesOf slot (p.lay s).1) :
    m.Stands P text := by
  cases s with
  | token kind field leading text trailing =>
    rw [Progress.lay, nodesOf] at hm
    cases hm
  | node kind field kids =>
    rw [Shape.everyBefore_node] at h
    rw [Shape.source] at htext
    rw [Progress.lay, nodesOf] at hm
    rcases List.mem_cons.1 hm with rfl | hm
    · exact ⟨front, rest, { p with nodes := p.nodes + 1 }, kids, htext, hp, rfl, h.1⟩
    · exact stands_of_mem_nodesFrom (p := { p with nodes := p.nodes + 1 }) htext hp h.2 hm

/-- **All nodes below shapes that are laid out stand in the text.** -/
theorem stands_of_mem_nodesFrom {n m : Node} {slot : Nat} {p : Progress} {front rest : Text}
    {ss : List Shape} (htext : text = front ++ (Shape.sourceAll ss ++ rest))
    (hp : p.offset = front.size) (h : Shape.EveryInBefore P ss rest)
    (hm : m ∈ n.nodesFrom slot (p.layAll ss).1) : m.Stands P text := by
  cases ss with
  | nil =>
    rw [Progress.layAll, nodesFrom] at hm
    cases hm
  | cons s ss =>
    rw [Shape.everyInBefore_cons] at h
    rw [Shape.sourceAll, List.append_assoc] at htext
    rw [Progress.layAll, nodesFrom, List.mem_append] at hm
    rcases hm with hm | hm
    · exact stands_of_mem_nodesOf htext hp h.1 hm
    · have htext : text = (front ++ s.source) ++ (Shape.sourceAll ss ++ rest) := by
        rw [htext, List.append_assoc]
      have hp : (p.lay s).2.offset = Text.size (front ++ s.source) := by
        rw [Progress.offset_lay, hp, Text.size_append]
      exact stands_of_mem_nodesFrom htext hp h.2 hm

end

/-- Behind the part of a node up to a child stands the text of the next siblings, and then that
behind the node. -/
theorem exists_child {n m : Node} {p : Progress} {kids : List Shape}
    (hchildren : n.children = (p.layAll kids).1) (hm : m ∈ n.nodes) :
    ∃ before inner behind, kids = before ++ .node m.kind m.field inner :: behind ∧
      (∃ q : Progress, m.children = (q.layAll inner).1) ∧
      m.fullSpan.stop =
        p.offset + (Shape.sourceAll (before ++ [.node m.kind m.field inner])).size := by
  obtain ⟨e, he, hnode⟩ := List.mem_filterMap.1 hm
  obtain ⟨slot, hslot, rfl⟩ := List.mem_mapIdx.1 he
  have hmem := List.getElem_mem hslot
  generalize n.children[slot] = i at hnode hmem
  rw [hchildren] at hmem
  obtain ⟨before, s, behind, rfl, rfl⟩ := Progress.exists_split_of_mem hmem
  have hoffset := (p.layAll before).2.offset_lay s
  cases s with
  | token kind field leading text trailing =>
    rw [Progress.lay] at hnode
    cases hnode
  | node kind field kids =>
    rw [Progress.lay] at hnode hoffset
    cases hnode
    refine ⟨before, kids, behind, rfl, ⟨_, rfl⟩, hoffset.trans ?_⟩
    rw [Progress.offset_layAll, Shape.sourceAll_append, Shape.sourceAll_singleton, Text.size_append,
      Nat.add_assoc]
    rfl

/-- **Every node of a parse stands in its text**, as the run has kept it. -/
theorem stands_of_parseWithin [Alphabet] {limits : Limits} {p : Parse}
    (h : parseWithin limits text = .ok p)
    (hlays : (State.start text).Lays P (State.run limits text)) :
    ∀ n ∈ p.tree.root.descendants, n.Stands P text := by
  have ha := aborted_of_parseWithin h
  obtain ⟨-, htext, hevery⟩ := hlays ha
  replace hevery := hevery (by simp [State.EveryBefore, State.start])
  obtain ⟨modes, kids, last, hout⟩ := State.run_outcome ha
  rw [hout.parseWithin_eq ha, Except.ok.injEq] at h
  subst h
  rw [State.ahead, hout.children, List.reverse_singleton, Shape.sourceAll_singleton,
    Shape.source] at htext
  rw [State.EveryBefore, hout.children, List.reverse_singleton, Shape.everyInBefore_singleton,
    Shape.everyBefore_node] at hevery
  generalize kids ++ [.token .eof none last.leading last.text last.trailing] = shapes at *
  rw [Tree.root_ofStem]
  intro n hn
  have hstart : text = [] ++ (Shape.sourceAll shapes ++ (State.run limits text).place.rest) :=
    htext.symm
  rcases List.mem_cons.1 hn with rfl | hn
  · exact ⟨[], _, { nodes := 1 }, shapes, hstart, rfl, rfl, hevery.1⟩
  · exact stands_of_mem_nodesFrom (p := { nodes := 1 }) hstart rfl hevery.2 hn

end Tree.Node

end ActionScript
