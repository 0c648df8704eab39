import ActionScript.Proofs.Answering.Statements
import ActionScript.Proofs.Lossless
import ActionScript.Proofs.Tiling

/-!
# Every node of a tree can answer

Nodes find their answers by slots and kinds, and the grammar fills the slots.  Of a text that
nothing is wrong with, the two agree throughout the tree.

* `Setting.answering_atDepth`: the rules make nodes that can answer, at every depth.
* `Tree.Node.Answering`: a node of a tree that can answer, seen from its children.
* `answers_of_parseWithin`: **without a diagnostic every node answers whatever it has to.**
-/

set_option autoImplicit false

namespace ActionScript

open ActionScript.Parser ActionScript.Grammar

/-! ## At every depth -/

namespace Setting

/-- **The rules make nodes that can answer**, at every depth. -/
theorem answering_atDepth [Alphabet] (limits : Limits) (depth : Nat) :
    (atDepth limits depth).Answering := by
  induction depth with
  | zero =>
    have hgiven : (givingUp limits).Answering :=
      ⟨fun _ _ _ h => (by cases h.aborted), fun _ _ _ h => (by cases h.aborted)⟩
    have hloud (rule : Rule) (s : State) : ¬(State.apply limits 0 rule s).Quiet := by
      intro hquiet
      rw [apply_zero] at hquiet
      have hflow : (reject .nestingTooDeep).Flow s.parts fun _ _ => False := flow_reject _
      exact flow_after hgiven (safe_reject _) hquiet hflow
    exact ⟨fun rule s _ h => absurd h (hloud rule s), fun rule s _ h => absurd h (hloud rule s)⟩
  | succ depth ih =>
    refine ⟨fun rule s hready hquiet => ?_, fun rule s hready hquiet hs => ?_⟩
    · rw [atDepth_succ] at hquiet ⊢
      exact flow_after ih (safe_rule hready) hquiet (flow_rule rule)
    · rw [atDepth_succ] at hquiet ⊢
      exact answered_after ih (safe_rule hready) hquiet (checks_rule rule) hs

end Setting

/-- A parse without a report makes no error nodes. -/
theorem State.quiet_run [Alphabet] {limits : Limits} {text : Text}
    (ha : (State.run limits text).aborted = none)
    (hreports : (State.run limits text).reports = []) : (State.run limits text).Quiet := by
  obtain ⟨-, herrors, -⟩ := State.accounts_run ha
  refine ⟨ha, hreports, ?_⟩
  rw [hreports] at herrors
  simpa [State.start] using herrors

/-- Everything in the root can answer, if nothing is reported.  The end of the text is no part of
that. -/
theorem State.answered_run [Alphabet] {limits : Limits} {text : Text}
    (hquiet : (State.run limits text).Quiet)
    {kids : List Shape} {last : Shape}
    (hchildren : (State.run limits text).children = [.node .sourceFile none (kids ++ [last])]) :
    Shape.AnsweredAll kids := by
  let E := Setting.atDepth limits limits.maxDepth
  obtain ⟨hsafe, -⟩ :=
    Setting.runs_statements (E := E) (s := (State.start text).enter E.limits [])
  change (E.after sourceFile (State.start text)).Quiet at hquiet
  change (E.after sourceFile (State.start text)).children = _ at hchildren
  rw [sourceFile_eq, Setting.after_nodeOf, Setting.after_bind] at hquiet hchildren
  have hloop := (Setting.grows_after (.take none) _).quiet hquiet.of_close.2
  have hanswered := Setting.answered_after (Setting.answering_atDepth limits _) hsafe hloop
    (checks_loop fun qs => by simp [statementRound]) fun c hc => absurd hc List.not_mem_nil
  rw [Setting.after_take, State.close_children, State.takeAs_children, List.reverse_cons,
    List.cons.injEq, Shape.node.injEq] at hchildren
  obtain ⟨⟨-, -, hkids⟩, -⟩ := hchildren
  rw [← List.append_inj_left' hkids rfl, Shape.answeredAll_iff]
  exact fun c hc => hanswered c (List.mem_reverse.1 hc)

/-! ## Parts of a tree -/

/-- What a child in its place shows to the node around it. -/
def Item.part : Item → Part
  | .token c => .token c.leaf.field
  | .node info _ => .node info.kind info.field

/-- What a child shows to the node around it, seen from there. -/
def Tree.Element.part : Tree.Element → Part
  | .token t => .token t.field
  | .node n => .node n.kind n.field

namespace Progress

theorem part_lay (p : Progress) (s : Shape) : (p.lay s).1.part = s.part := by
  cases s with
  | token kind field leading text trailing => simp [lay, Item.part, Shape.part, cluster, leaf]
  | node kind field children =>
    rw [lay]
    rfl

theorem parts_layAll (p : Progress) (ss : List Shape) :
    (p.layAll ss).1.map Item.part = ss.map Shape.part := by
  induction ss generalizing p with
  | nil => rw [layAll, List.map_nil, List.map_nil]
  | cons s ss ih => rw [layAll, List.map_cons, List.map_cons, part_lay, ih]

/-- The tokens among shapes that can answer have a text. -/
theorem text_ne_nil_of_mem_layAll {p : Progress} {ss : List Shape} {c : Cluster}
    (h : Shape.AnsweredAll ss) (hc : .token c ∈ (p.layAll ss).1) : c.leaf.text ≠ [] := by
  induction ss generalizing p with
  | nil =>
    rw [layAll] at hc
    cases hc
  | cons s ss ih =>
    rw [Shape.AnsweredAll] at h
    rw [layAll, List.mem_cons] at hc
    rcases hc with hc | hc
    · cases s with
      | token kind field leading text trailing =>
        rw [lay, Item.token.injEq] at hc
        have htext := h.1
        rw [Shape.Answered] at htext
        rw [hc]
        simpa [cluster, leaf] using htext
      | node kind field children =>
        rw [lay] at hc
        cases hc
    · exact ih h.2 hc

end Progress

namespace Tree.Node

/-- What a node holds, the last child first. -/
def parts (n : Node) : List Part := (n.elements.map Element.part).reverse

/-- A node of a tree that can answer.  Its children stand one behind the other, and its tokens have
a text. -/
structure Answering (n : Node) : Prop where
  answers : Answers n.kind n.parts
  follow : ∃ start stop, Span.Follow start (n.elements.map Element.span) stop
  text_ne_nil : ∀ t, .token t ∈ n.elements → t.leaf.text ≠ []

theorem map_part_elements (n : Node) : n.elements.map Element.part = n.children.map Item.part := by
  have hpart (slot : Nat) (i : Item) : (n.element slot i).part = i.part := by
    cases i <;> rfl
  refine List.ext_getElem? fun slot => ?_
  simp [elements, hpart, Function.comp_def]

theorem exists_cluster_of_mem_elements {n : Node} {t : Token} (h : .token t ∈ n.elements) :
    ∃ c, Item.token c ∈ n.children ∧ t.leaf = c.leaf := by
  obtain ⟨slot, hslot, hitem⟩ := List.mem_mapIdx.1 h
  have hmem := List.getElem_mem hslot
  generalize n.children[slot] = i at hitem hmem
  cases i with
  | token c =>
    rw [element, Element.token.injEq] at hitem
    exact ⟨c, hmem, hitem ▸ rfl⟩
  | node info children => cases hitem

mutual

theorem answering_of_mem_nodesOf {n m : Node} {slot : Nat} {p : Progress} {s : Shape}
    (hp : p.Settled) (h : s.Answered) (hm : m ∈ n.nodesOf slot (p.lay s).1) : m.Answering := by
  cases s with
  | token kind field leading text trailing =>
    rw [Progress.lay, nodesOf] at hm
    cases hm
  | node kind field children =>
    have hbelow := Progress.advance_layAll (p := { p with nodes := p.nodes + 1 }) hp children
    rw [Progress.lay, nodesOf] at hm
    rw [Shape.Answered] at h
    rcases List.mem_cons.1 hm with rfl | hm
    · refine ⟨?_, ⟨p.tokenEnd,
        (Progress.layAll { p with nodes := p.nodes + 1 } children).2.tokenEnd, ?_⟩, fun t ht => ?_⟩
      · rw [parts, map_part_elements, child, Progress.parts_layAll, ← List.map_reverse]
        exact h.1
      · rw [map_span_elements]
        exact hbelow.follow
      · obtain ⟨c, hc, hleaf⟩ := exists_cluster_of_mem_elements ht
        rw [hleaf]
        exact Progress.text_ne_nil_of_mem_layAll h.2 hc
    · exact answering_of_mem_nodesFrom (p := { p with nodes := p.nodes + 1 }) hp h.2 hm

/-- **Laid out, shapes that can answer make nodes that can.** -/
theorem answering_of_mem_nodesFrom {n m : Node} {slot : Nat} {p : Progress} {ss : List Shape}
    (hp : p.Settled) (h : Shape.AnsweredAll ss) (hm : m ∈ n.nodesFrom slot (p.layAll ss).1) :
    m.Answering := by
  cases ss with
  | nil =>
    rw [Progress.layAll, nodesFrom] at hm
    cases hm
  | cons s ss =>
    rw [Progress.layAll, nodesFrom, List.mem_append] at hm
    rw [Shape.AnsweredAll] at h
    rcases hm with hm | hm
    · exact answering_of_mem_nodesOf hp h.1 hm
    · exact answering_of_mem_nodesFrom (Progress.advance_lay hp s).settled h.2 hm

end

end Tree.Node

/-! ## Answers -/

/-- Is there a node, token or element that is the answer? -/
def Answer.isGiven : Answer → Bool
  | .node n => n.isSome
  | .token t => t.isSome
  | .element e => e.isSome
  | _ => false

namespace Tree

@[simp] theorem Element.field_part (e : Element) : e.part.field = e.field := by cases e <;> rfl

theorem Element.kind?_part (e : Element) : e.part.kind? = e.node?.map Node.kind := by
  cases e <;> rfl

theorem Element.isNone_kind?_part (e : Element) : e.part.kind?.isNone = e.token?.isSome := by
  cases e <;> rfl

theorem Element.exists_token {e : Element} {f : Option Field} (h : e.part = .token f) :
    ∃ t, e = .token t ∧ t.field = f := by
  cases e with
  | token t => exact ⟨t, rfl, congrArg Part.field h⟩
  | node n => cases h

theorem Element.exists_node {e : Element} {kind : Kind} {f : Option Field}
    (h : e.part = .node kind f) : ∃ n, e = .node n ∧ n.field = f := by
  cases e with
  | token t => cases h
  | node n => exact ⟨n, rfl, congrArg Part.field h⟩

/-- The first node in a slot is found in the parts. -/
theorem Node.map_kind_nodeIn? (n : Node) (f : Field) :
    (n.nodeIn? f).map Node.kind = Part.nodeIn? f n.parts := by
  rw [nodeIn?, inField, parts]
  induction n.elements with
  | nil => rfl
  | cons e es ih =>
    rw [List.map_cons, List.reverse_cons, Part.nodeIn?_concat, ← ih, Element.field_part,
      Element.kind?_part]
    by_cases hf : e.field = some f
    · rw [List.filter_cons_of_pos (by simpa using hf), if_pos hf, List.findSome?_cons]
      cases e.node? <;> rfl
    · rw [List.filter_cons_of_neg (by simpa using hf), if_neg hf, Option.none_or]

theorem Node.isSome_tokenIn? (n : Node) (f : Field) :
    (n.tokenIn? f).isSome = Part.tokenIn f n.parts := by
  rw [tokenIn?, inField, parts, Part.tokenIn, List.any_reverse, List.any_map]
  induction n.elements with
  | nil => rfl
  | cons e es ih =>
    rw [List.any_cons, ← ih, Function.comp_apply, Element.isNone_kind?_part, Element.field_part]
    by_cases hf : e.field = some f
    · rw [List.filter_cons_of_pos (by simpa using hf), List.findSome?_cons, hf]
      cases e.token? <;> simp
    · rw [List.filter_cons_of_neg (by simpa using hf), beq_false_of_ne hf, Bool.and_false,
        Bool.false_or]

theorem Node.isSome_field? (n : Node) (f : Field) :
    (n.field? f).isSome = Part.elementIn f n.parts := by
  rw [field?, inField, List.head?_filter, parts, Part.elementIn, List.any_reverse, List.any_map,
    Bool.eq_iff_iff, List.find?_isSome, List.any_eq_true]
  simp

end Tree

/-- **What the parts hold can be asked for.** -/
theorem Question.isGiven_ask {tree : Tree} {n : Tree.Node} {q : Question} (h : q.MetBy n.parts)
    (hslot : q.slot?.isSome = true) : (q.ask tree n).isGiven = true := by
  cases q with
  | node field role =>
    obtain ⟨kind, hkind, hrole⟩ := h
    rw [← n.map_kind_nodeIn?, Option.map_eq_some_iff] at hkind
    obtain ⟨c, hc, rfl⟩ := hkind
    simp [ask, Answer.isGiven, Tree.Node.child?, hc, hrole]
  | token field => exact (n.isSome_tokenIn? field).trans h
  | element field => exact (n.isSome_field? field).trans h
  | _ => cases hslot

namespace Tree.Node

/-- An operator and an operand are all the children of an update, in either order. -/
theorem Answering.update {n : Node} (h : n.Answering) (hkind : n.kind = .updateExpr) :
    ∃ operator argument, (n.elements = [.token operator, .node argument] ∨
        n.elements = [.node argument, .token operator]) ∧
      operator.field = some .operator ∧ argument.field = some .argument := by
  have hsplit {first second : Part} (hparts : n.parts = [second, first]) :
      ∃ d e, n.elements = [d, e] ∧ d.part = first ∧ e.part = second := by
    rw [parts, List.reverse_eq_iff] at hparts
    obtain ⟨d, es, hes, hd, hrest⟩ := List.map_eq_cons_iff.1 hparts
    obtain ⟨e, fs, rfl, he, hnil⟩ := List.map_eq_cons_iff.1 hrest
    rw [List.map_eq_nil_iff.1 hnil] at hes
    exact ⟨d, e, hes, hd, he⟩
  obtain ⟨kind, hparts | hparts⟩ := h.answers.update hkind
  · obtain ⟨d, e, helements, hd, he⟩ := hsplit hparts
    obtain ⟨argument, rfl, hargument⟩ := Element.exists_node hd
    obtain ⟨operator, rfl, hoperator⟩ := Element.exists_token he
    exact ⟨operator, argument, .inr helements, hoperator, hargument⟩
  · obtain ⟨d, e, helements, hd, he⟩ := hsplit hparts
    obtain ⟨operator, rfl, hoperator⟩ := Element.exists_token hd
    obtain ⟨argument, rfl, hargument⟩ := Element.exists_node he
    exact ⟨operator, argument, .inl helements, hoperator, hargument⟩

theorem Answering.isGiven_ask {n : Node} (h : n.Answering) (tree : Tree) :
    ∀ q ∈ View.required n.kind, (q.ask tree n).isGiven = true := by
  intro q hq
  have hslot : q.slot?.isSome = true := by
    obtain ⟨-, hslot⟩ := List.mem_filter.1 hq
    cases hq : q.slot? with
    | none => simp [hq] at hslot
    | some field => rfl
  exact Question.isGiven_ask (h.answers.met q hq) hslot

/-- The operator of an update stands behind its operand exactly if it says so. -/
theorem Answering.isOperatorLast_iff {n : Node} (h : n.Answering) (hkind : n.kind = .updateExpr) :
    ∃ operator argument,
      n.tokenIn? .operator = some operator ∧
      n.child? .argument (.family .expression) = some argument ∧
      (n.elements = [.token operator, .node argument] ∨
        n.elements = [.node argument, .token operator]) ∧
      (n.isOperatorLast = true ↔ n.elements = [.node argument, .token operator]) := by
  obtain ⟨operator, argument, helements, hoperator, hargument⟩ := h.update hkind
  have htoken : n.tokenIn? .operator = some operator := by
    rcases helements with helements | helements <;>
      simp [tokenIn?, inField, helements, Element.field, hoperator, hargument, Element.token?]
  have hnode : n.nodeIn? .argument = some argument := by
    rcases helements with helements | helements <;>
      simp [nodeIn?, inField, helements, Element.field, hoperator, hargument, Element.node?]
  have hchild : n.child? .argument (.family .expression) = some argument := by
    obtain ⟨kind, hfirst, hadmits⟩ := h.answers.met (.node .argument (.family .expression))
      (by rw [hkind]; decide)
    rw [← map_kind_nodeIn?, hnode, Option.map_some, Option.some.injEq] at hfirst
    rw [child?, hnode, Option.filter_some, hfirst, if_pos hadmits]
  refine ⟨operator, argument, htoken, hchild, helements, ?_⟩
  have hlast : n.isOperatorLast = decide (argument.span.stop ≤ operator.span.start) := by
    rw [isOperatorLast, htoken, hchild]
  obtain ⟨start, stop, hfollow⟩ := h.follow
  rw [hlast, decide_eq_true_iff]
  rcases helements with helements | helements
  · have htext := Text.size_pos (h.text_ne_nil operator (by simp [helements]))
    have hlt : operator.span.start < operator.span.stop := Nat.lt_add_of_pos_right htext
    rw [helements] at hfollow
    obtain ⟨-, -, hle, hproper, -⟩ := hfollow
    have hle : operator.span.stop ≤ argument.span.start := hle
    have hproper : argument.span.start ≤ argument.span.stop := hproper
    exact iff_of_false (by omega) (by simp [helements])
  · rw [helements] at hfollow
    exact iff_of_true hfollow.2.2.1 helements

end Tree.Node

theorem Tree.Node.nodesFrom_append (n : Tree.Node) (slot : Nat) (is js : List Item) :
    n.nodesFrom slot (is ++ js) = n.nodesFrom slot is ++ n.nodesFrom (slot + is.length) js := by
  induction is generalizing slot with
  | nil => simp [Tree.Node.nodesFrom]
  | cons i is ih =>
    simp only [List.cons_append, Tree.Node.nodesFrom, ih, List.append_assoc, List.length_cons]
    rw [Nat.add_assoc, Nat.add_comm 1]

/-- **Without a diagnostic every node answers whatever it has to.**  An update has an operator and
an operand, in either order, and says which. -/
theorem answers_of_parseWithin [Alphabet] {limits : Limits} {text : Text} {p : Parse}
    (h : parseWithin limits text = .ok p) (hnone : p.diagnostics = []) :
    ∀ n ∈ p.tree.root.descendants,
      (∀ q ∈ View.required n.kind, (q.ask p.tree n).isGiven = true) ∧
      (n.kind = .updateExpr → ∃ operator argument,
        n.tokenIn? .operator = some operator ∧
        n.child? .argument (.family .expression) = some argument ∧
        (n.elements = [.token operator, .node argument] ∨
          n.elements = [.node argument, .token operator]) ∧
        (n.isOperatorLast = true ↔ n.elements = [.node argument, .token operator])) := by
  have ha := aborted_of_parseWithin h
  obtain ⟨modes, kids, last, hout⟩ := State.run_outcome ha
  rw [hout.parseWithin_eq ha, Except.ok.injEq] at h
  subst h
  have hquiet := State.quiet_run ha (List.reverse_eq_nil_iff.1 hnone)
  have hkids := State.answered_run hquiet hout.children
  intro n hn
  rcases List.mem_cons.1 hn with rfl | hn
  · exact ⟨fun q hq => absurd hq List.not_mem_nil, fun hkind => (by cases hkind)⟩
  have hanswering : n.Answering := by
    have hstart : Progress.Settled { nodes := 1 } := Nat.le_refl 0
    have hlast (i : Progress) (slot : Nat) (m : Tree.Node) : m.nodesFrom slot (i.layAll
        [.token .eof none last.leading last.text last.trailing]).1 = [] := rfl
    change n ∈ Tree.Node.nodesFrom _ 0 (Progress.layAll { nodes := 1 } (List.reverse _)).1 at hn
    rw [List.reverse_reverse, Progress.layAll_append, Tree.Node.nodesFrom_append, hlast,
      List.append_nil] at hn
    exact Tree.Node.answering_of_mem_nodesFrom hstart hkids hn
  exact ⟨hanswering.isGiven_ask _, hanswering.isOperatorLast_iff⟩

/-- Here an operator stands behind its operand, and an `if` has no `else`: what has to be there
is. -/
theorem answers_of_parseWithin_update : ∃ p, parseWithin {} "if (a.b) x++;".toList = .ok p ∧
    p.diagnostics = [] ∧
    (∃ n ∈ p.tree.root.descendants, n.kind = .ifStmt ∧
      (∃ condition, n.child? .condition (.family .expression) = some condition) ∧
      (∃ consequence, n.child? .consequence (.family .statement) = some consequence) ∧
      n.child? .alternative (.family .statement) = none) ∧
    ∃ n ∈ p.tree.root.descendants, n.kind = .updateExpr ∧ n.isOperatorLast = true ∧
      ∃ operator argument, n.tokenIn? .operator = some operator ∧
        n.child? .argument (.family .expression) = some argument ∧
        n.elements = [.node argument, .token operator] := by
  obtain ⟨p, hp, htest⟩ := exists_parse_of_test {} "if (a.b) x++;".toList
    (fun p => p.diagnostics.isEmpty &&
      (p.tree.root.descendants.any fun n => n.kind == .ifStmt &&
        (n.child? .alternative (.family .statement)).isNone) &&
      p.tree.root.descendants.any fun n => n.kind == .updateExpr && n.isOperatorLast)
    (by decide +kernel)
  simp only [Bool.and_eq_true, List.any_eq_true, List.isEmpty_iff, Option.isNone_iff_eq_none,
    beq_iff_eq] at htest
  obtain ⟨⟨hclean, n, hn, hif, hnone⟩, m, hm, hupdate, hlast⟩ := htest
  have hasked := (answers_of_parseWithin hp hclean n hn).1
  have hcondition := hasked (.node .condition (.family .expression)) (by rw [hif]; decide)
  have hconsequence := hasked (.node .consequence (.family .statement)) (by rw [hif]; decide)
  obtain ⟨operator, argument, htoken, hchild, -, horder⟩ :=
    (answers_of_parseWithin hp hclean m hm).2 hupdate
  exact ⟨p, hp, hclean,
    ⟨n, hn, hif, Option.isSome_iff_exists.1 hcondition,
      Option.isSome_iff_exists.1 hconsequence, hnone⟩,
    m, hm, hupdate, hlast, operator, argument, htoken, hchild, horder.1 hlast⟩

end ActionScript
