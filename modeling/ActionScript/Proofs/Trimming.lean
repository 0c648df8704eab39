import ActionScript.Proofs.Markup.Crafted
import ActionScript.Proofs.Refinement

/-!
# Where the tokens of a node begin and end

A node ends where its last token does, and one without tokens is empty.  It begins where its first
token does, but for one exception: an empty error node lies at the end of the token before it, and a
node that opens with one begins there as well.

* `Item.opensEmpty`: does a child, or the first thing in it, hold nothing at all?
* `Tree.Node.LiesIn`: where a node lies among tokens, and what it was laid out from.
* `span_of_parseWithin`: **the span of every node, told by its tokens.**
-/

set_option autoImplicit false

namespace ActionScript

mutual

/-- Does a child open with a node that holds nothing? -/
def Item.opensEmpty : Item → Bool
  | .token _ => false
  | .node _ children => Item.openEmpty children

/-- Do the children of a node open with a node that holds nothing, or are there none? -/
def Item.openEmpty : List Item → Bool
  | [] => true
  | i :: _ => i.opensEmpty

end

/-- Does a node open with an empty one, or is it empty itself? -/
def Tree.Node.opensEmpty (n : Tree.Node) : Bool := Item.openEmpty n.children

/-! ## Where tokens end -/

/-- Where the last of some tokens ends; `start` if there is none. -/
def Cluster.lastStop (start : Nat) (cs : List Cluster) : Nat :=
  (cs.getLast?.map fun c => c.leaf.span.stop).getD start

namespace Cluster

@[simp] theorem lastStop_nil (start : Nat) : lastStop start [] = start := rfl

@[simp] theorem lastStop_append (start : Nat) (cs ds : List Cluster) :
    lastStop start (cs ++ ds) = lastStop (lastStop start cs) ds := by
  rw [lastStop, lastStop, List.getLast?_append]
  cases ds.getLast? <;> rfl

end Cluster

namespace Progress

mutual

/-- **The end that is kept in view is that of the last token.** -/
theorem tokenEnd_lay (p : Progress) (s : Shape) :
    (p.lay s).2.tokenEnd = Cluster.lastStop p.tokenEnd (p.lay s).1.clusters := by
  cases s with
  | token kind field leading text trailing =>
    rw [lay, Item.clusters]
    exact p.cluster_tokenEnd kind field leading text trailing
  | node kind field children =>
    rw [lay, Item.clusters]
    exact tokenEnd_layAll { p with nodes := p.nodes + 1 } children

theorem tokenEnd_layAll (p : Progress) (ss : List Shape) :
    (p.layAll ss).2.tokenEnd = Cluster.lastStop p.tokenEnd (Item.clustersAll (p.layAll ss).1) := by
  cases ss with
  | nil =>
    rw [layAll, Item.clustersAll]
    rfl
  | cons s ss =>
    rw [layAll, Item.clustersAll, Cluster.lastStop_append, ← tokenEnd_lay p s]
    exact tokenEnd_layAll (p.lay s).2 ss

end

end Progress

/-! ## Where a child begins -/

/-- A child, laid out behind a token that ends at `stop`, begins with its first token; if it opens
with an empty node, it begins at `stop`. -/
structure Item.Begins (stop : Nat) (i : Item) : Prop where
  empty : i.opensEmpty = true → i.span.start = stop
  token : i.opensEmpty = false → ∃ c cs, i.clusters = c :: cs ∧ i.span.start = c.leaf.start

namespace Progress

/-- A node begins where the first of its children does. -/
theorem Advance.begins {p q : Progress} {items : List Item} (h : p.Advance q items)
    (hfirst : ∀ i is, items = i :: is → i.Begins p.tokenEnd) (r : Progress) (kind : Kind)
    (field : Option Field) : (Item.node (r.info q kind field items) items).Begins p.tokenEnd := by
  cases items with
  | nil => exact ⟨fun _ => h.follow.symm, fun hfalse => (by cases hfalse)⟩
  | cons i is =>
    obtain ⟨hempty, htoken⟩ := hfirst i is rfl
    have hspan := congrArg Span.start (h.info_span_cons r kind field)
    refine ⟨fun hopen => hspan.trans (hempty hopen), fun hopen => ?_⟩
    obtain ⟨c, cs, hc, hstart⟩ := htoken hopen
    refine ⟨c, cs ++ Item.clustersAll is, ?_, hspan.trans hstart⟩
    rw [Item.clusters, Item.clustersAll, hc, List.cons_append]

mutual

theorem begins_lay {p : Progress} (h : p.Settled) (s : Shape) : (p.lay s).1.Begins p.tokenEnd := by
  cases s with
  | token kind field leading text trailing =>
    rw [lay]
    exact ⟨fun hopen => (by cases hopen), fun _ => ⟨_, [], rfl, rfl⟩⟩
  | node kind field children =>
    rw [lay]
    exact (advance_layAll (p := { p with nodes := p.nodes + 1 }) h children).begins
      (begins_of_layAll (p := { p with nodes := p.nodes + 1 }) h children) p kind field

/-- **The first of the children that are laid out begins where it should.** -/
theorem begins_of_layAll {p : Progress} (h : p.Settled) (ss : List Shape) :
    ∀ i is, (p.layAll ss).1 = i :: is → i.Begins p.tokenEnd := by
  cases ss with
  | nil =>
    intro i is hitems
    cases hitems
  | cons s ss =>
    intro i is hitems
    rw [layAll, List.cons.injEq] at hitems
    exact hitems.1 ▸ begins_lay h s

end

end Progress

/-! ## Nodes among the tokens of a tree -/

namespace Tree

/-- Where the last token ends that is no trivia; `start` if there is none. -/
def Token.lastStop (start : Nat) (ts : List Token) : Nat :=
  Cluster.lastStop start ((ts.filter fun t => !t.isTrivia).map Token.cluster)

theorem Token.lastStop_append (start : Nat) (ts us : List Token) :
    lastStop start (ts ++ us) = lastStop (lastStop start ts) us := by
  simp [lastStop]

namespace Node

/-- A node has its tokens among others, behind a token that ends at `start` if it is the first.  It
was laid out there from shapes all of whose nodes are as `P` says. -/
def LiesIn (P : Kind → List Shape → Prop) (start : Nat) (ts : List Token) (n : Node) : Prop :=
  ∃ (before behind : List Token) (p : Progress) (kids : List Shape),
    ts = before ++ n.tokens ++ behind ∧ p.Settled ∧ p.tokenEnd = Token.lastStop start before ∧
    n.children = (p.layAll kids).1 ∧
    n.span = (p.info (p.layAll kids).2 n.kind n.field n.children).span ∧
    n.fullSpan = ⟨p.offset, (p.layAll kids).2.offset⟩ ∧
    (∀ c ∈ Item.clustersAll n.children, c.Proper) ∧
    (Shape.node n.kind n.field kids).Every P

variable {P : Kind → List Shape → Prop} {start : Nat} {ts us : List Token}

theorem LiesIn.append_right {n : Node} (h : n.LiesIn P start ts) (us : List Token) :
    n.LiesIn P start (ts ++ us) := by
  obtain ⟨before, behind, p, kids, rfl, hrest⟩ := h
  exact ⟨before, behind ++ us, p, kids, by simp, hrest⟩

theorem LiesIn.append_left {n : Node} (h : n.LiesIn P (Token.lastStop start ts) us) :
    n.LiesIn P start (ts ++ us) := by
  obtain ⟨before, behind, p, kids, rfl, hp, hstop, hrest⟩ := h
  exact ⟨ts ++ before, behind, p, kids, by simp, hp, by rw [hstop, Token.lastStop_append], hrest⟩

mutual

theorem liesIn_of_mem_nodesOf {n m : Node} {slot : Nat} {p : Progress} {s : Shape}
    (hp : p.Settled) (h : s.Every P) (hproper : ∀ c ∈ (p.lay s).1.clusters, c.Proper)
    (hm : m ∈ n.nodesOf slot (p.lay s).1) :
    m.LiesIn P p.tokenEnd (n.tokensOf slot (p.lay s).1) := by
  cases s with
  | token kind field leading text trailing =>
    rw [Progress.lay, nodesOf] at hm
    cases hm
  | node kind field children =>
    rw [Progress.lay] at hproper hm ⊢
    rw [nodesOf] at hm
    rw [tokensOf]
    rw [Item.clusters] at hproper
    rcases List.mem_cons.1 hm with rfl | hm
    · exact ⟨[], [], { p with nodes := p.nodes + 1 }, children, by simp [tokens, child],
        hp, rfl, rfl, rfl, rfl, hproper, h⟩
    · rw [Shape.Every] at h
      exact liesIn_of_mem_nodesFrom (p := { p with nodes := p.nodes + 1 }) hp h.2 hproper hm

/-- **All nodes below shapes that are laid out lie among their tokens.** -/
theorem liesIn_of_mem_nodesFrom {n m : Node} {slot : Nat} {p : Progress} {ss : List Shape}
    (hp : p.Settled) (h : Shape.EveryIn P ss)
    (hproper : ∀ c ∈ Item.clustersAll (p.layAll ss).1, c.Proper)
    (hm : m ∈ n.nodesFrom slot (p.layAll ss).1) :
    m.LiesIn P p.tokenEnd (n.tokensFrom slot (p.layAll ss).1) := by
  cases ss with
  | nil =>
    rw [Progress.layAll, nodesFrom] at hm
    cases hm
  | cons s ss =>
    rw [Progress.layAll] at hproper hm ⊢
    rw [nodesFrom, List.mem_append] at hm
    rw [Item.clustersAll] at hproper
    rw [tokensFrom]
    rw [Shape.EveryIn] at h
    rcases hm with hm | hm
    · exact (liesIn_of_mem_nodesOf hp h.1 (fun c hc => hproper c (List.mem_append_left _ hc))
        hm).append_right _
    · refine .append_left ?_
      have hstop : Token.lastStop p.tokenEnd (n.tokensOf slot (p.lay s).1) =
          (p.lay s).2.tokenEnd := by
        rw [Token.lastStop, n.map_cluster_tokensOf slot _ fun c hc =>
          hproper c (List.mem_append_left _ hc), Progress.tokenEnd_lay]
      rw [hstop]
      exact liesIn_of_mem_nodesFrom (Progress.advance_lay hp s).settled h.2
        (fun c hc => hproper c (List.mem_append_right _ hc)) hm

end

end Node

end Tree

/-- The root of a tree is laid out from the beginning of the text. -/
theorem Tree.root_ofStem (text : Text) (kind : Kind) (field : Option Field) (shapes : List Shape) :
    (Tree.ofStem text ⟨kind, field, shapes.reverse⟩).root =
      ⟨Progress.info {} (Progress.layAll { nodes := 1 } shapes).2 kind field
        (Progress.layAll { nodes := 1 } shapes).1,
        (Progress.layAll { nodes := 1 } shapes).1, []⟩ := by
  simp only [Tree.ofStem, Tree.root, List.reverse_reverse]

/-- **Every node of a parse lies among the tokens of the root**, made as all nodes of the run
are. -/
theorem liesIn_of_every [Alphabet] {P : Kind → List Shape → Prop} {limits : Limits}
    {text : Text} {p : Parse}
    (h : parseWithin limits text = .ok p) (hevery : (State.run limits text).Every P) :
    ∀ n ∈ p.tree.root.descendants, n.LiesIn P 0 p.tree.root.tokens := by
  have ha := aborted_of_parseWithin h
  obtain ⟨-, -, hproper⟩ := exists_renders h
  obtain ⟨modes, kids, last, hout⟩ := State.run_outcome ha
  rw [hout.parseWithin_eq ha, Except.ok.injEq] at h
  subst h
  have hroot := hevery _ (by rw [hout.children]; exact List.mem_cons_self)
  generalize kids ++ [.token .eof none last.leading last.text last.trailing] = shapes at *
  rw [Tree.root_ofStem] at hproper ⊢
  have hstart : Progress.Settled { nodes := 1 } := Nat.le_refl 0
  intro n hn
  rcases List.mem_cons.1 hn with rfl | hn
  · exact ⟨[], [], { nodes := 1 }, shapes, by simp, hstart, rfl, rfl, rfl, rfl,
      hproper, hroot⟩
  · exact Tree.Node.liesIn_of_mem_nodesFrom hstart
      (Shape.everyIn_iff.2 (Shape.every_node.1 hroot).2)
      hproper hn

/-- The diagnostics of a parse are what the run has reported. -/
theorem diagnostics_of_parseWithin [Alphabet] {limits : Limits} {text : Text} {p : Parse}
    (h : parseWithin limits text = .ok p) :
    p.diagnostics = (State.run limits text).reports.reverse := by
  have ha := aborted_of_parseWithin h
  obtain ⟨modes, kids, last, hout⟩ := State.run_outcome ha
  rw [hout.parseWithin_eq ha, Except.ok.injEq] at h
  subst h
  rfl

/-- So each is crafted; if nothing is reported, nothing is wrong. -/
theorem liesIn_of_parseWithin [Alphabet] {limits : Limits} {text : Text} {p : Parse}
    (h : parseWithin limits text = .ok p) : ∀ n ∈ p.tree.root.descendants,
      n.LiesIn (Crafted (p.diagnostics = [])) 0 p.tree.root.tokens := by
  refine liesIn_of_every h ?_
  rw [diagnostics_of_parseWithin h, List.reverse_eq_nil_iff]
  exact State.every_run (aborted_of_parseWithin h)

/-! ## Spans -/

/-- No token begins before the place that it was laid out from. -/
theorem Laid.le_start {offset stop : Nat} {ss : List Shape} {c : Cluster} {cs : List Cluster}
    (h : Laid offset ss (c :: cs) stop) : offset ≤ c.leaf.start := by
  cases h with
  | @cons _ _ s _ _ _ hshows _ =>
    cases s with
    | token kind field leading text trailing =>
      obtain ⟨-, -, -, -, hstart, -⟩ := hshows
      rw [hstart]
      exact Nat.le_add_right _ _
    | node kind field children => exact hshows.elim

namespace Tree.Node

variable {P : Kind → List Shape → Prop} {start : Nat} {ts : List Token} {n : Node}

/-- **What the tokens of a node say of where it lies.** -/
theorem LiesIn.span_eq (h : n.LiesIn P start ts) :
    ∃ before behind, ts = before ++ n.tokens ++ behind ∧
      n.span.stop = Token.lastStop start (before ++ n.tokens) ∧
      (n.opensEmpty = true → n.span.start = Token.lastStop start before) ∧
      (n.opensEmpty = false → ∃ t us, n.significantTokens = t :: us ∧
        n.span.start = t.span.start ∧ n.fullSpan.contains n.span = true) := by
  obtain ⟨before, behind, p, kids, hts, hp, hstop, hchildren, hspan, hfull, hproper, -⟩ := h
  have hclusters := map_cluster_significantTokens n hproper
  have hadvance := Progress.advance_layAll hp kids
  have hbegins := hadvance.begins (Progress.begins_of_layAll hp kids) p n.kind n.field
  have hend := Progress.tokenEnd_layAll p kids
  obtain ⟨-, -, hlast⟩ := hadvance.info_span p n.kind n.field
  have hlaid := p.laid_layAll kids
  rw [← hchildren] at hbegins hend hlast hlaid
  rw [← hspan] at hlast
  refine ⟨before, behind, hts, ?_, fun hopen => ?_, fun hopen => ?_⟩
  · rw [hlast, hend, hstop, Token.lastStop_append, ← hclusters]
    rfl
  · rw [← hstop]
    exact (congrArg Span.start hspan).trans (hbegins.empty hopen)
  · obtain ⟨c, cs, hc, hstart⟩ := hbegins.token hopen
    have hstart : n.span.start = c.leaf.start := (congrArg Span.start hspan).trans hstart
    rw [Item.clusters] at hc
    rw [hc] at hlaid hclusters
    obtain ⟨t, us, htokens, rfl, -⟩ := List.map_eq_cons_iff.1 hclusters
    refine ⟨t, us, htokens, hstart, ?_⟩
    rw [Span.contains, hfull, hlast, hstart, Bool.and_eq_true, decide_eq_true_eq, decide_eq_true_eq]
    exact ⟨hlaid.le_start, hadvance.settled⟩

end Tree.Node

namespace Progress

variable {q : Prop}

mutual

/-- Where nothing is wrong, no node is empty. -/
theorem opensEmpty_lay (hq : q) (p : Progress) {s : Shape} (h : s.Every (Crafted q)) :
    (p.lay s).1.opensEmpty = false := by
  cases s with
  | token kind field leading text trailing =>
    rw [lay]
    rfl
  | node kind field children =>
    rw [Shape.Every] at h
    rw [lay, Item.opensEmpty]
    exact openEmpty_layAll hq _ h.2 fun hnil => h.1.sound hq (h.1.filled hnil)

theorem openEmpty_layAll (hq : q) (p : Progress) {ss : List Shape}
    (h : Shape.EveryIn (Crafted q) ss) (hne : ss ≠ []) :
    Item.openEmpty (p.layAll ss).1 = false := by
  cases ss with
  | nil => exact absurd rfl hne
  | cons s ss =>
    rw [Shape.EveryIn] at h
    rw [layAll, Item.openEmpty]
    exact opensEmpty_lay hq p h.1

end

end Progress

/-- In a tree that nothing is wrong with no node opens with an empty one. -/
theorem Tree.Node.LiesIn.opensEmpty_eq_false {q : Prop} {start : Nat} {ts : List Token} {n : Node}
    (h : n.LiesIn (Crafted q) start ts) (hq : q) : n.opensEmpty = false := by
  obtain ⟨before, behind, p, kids, -, -, -, hchildren, -, -, -, hevery⟩ := h
  rw [Shape.Every] at hevery
  rw [opensEmpty, hchildren]
  exact Progress.openEmpty_layAll hq p hevery.2 fun hnil =>
    hevery.1.sound hq (hevery.1.filled hnil)

/-- **The span of every node, told by its tokens.**  They are a stretch of the tokens of the tree.
A node ends where its last token does, and it is empty if it has none.  It begins where its first
token does, and lies within its full span, unless it opens with an empty node; then it begins where
the last token before it ends.  Where nothing is wrong with the text, no node opens so. -/
theorem span_of_parseWithin [Alphabet] {limits : Limits} {text : Text} {p : Parse}
    (h : parseWithin limits text = .ok p) :
    ∀ n ∈ p.tree.root.descendants, ∃ before behind,
      p.tree.root.significantTokens = before ++ n.significantTokens ++ behind ∧
      (n.significantTokens = [] → n.span.start = n.span.stop) ∧
      (∀ t, n.significantTokens.getLast? = some t → n.span.stop = t.span.stop) ∧
      (n.opensEmpty = false → ∃ t, n.significantTokens.head? = some t ∧
        n.span.start = t.span.start ∧ n.fullSpan.contains n.span = true) ∧
      (n.opensEmpty = true →
        n.span.start = (before.getLast?.map fun t => t.span.stop).getD 0) ∧
      (p.diagnostics = [] → n.opensEmpty = false) := by
  intro n hn
  have hlies := liesIn_of_parseWithin h n hn
  obtain ⟨before, behind, htokens, hstop, hempty, htoken⟩ := hlies.span_eq
  have hlast (start : Nat) (ts : List Tree.Token) : Tree.Token.lastStop start ts =
      ((ts.filter fun t => !t.isTrivia).getLast?.map fun t => t.span.stop).getD start := by
    rw [Tree.Token.lastStop, Cluster.lastStop, List.getLast?_map, Option.map_map]
    rfl
  refine ⟨before.filter fun t => !t.isTrivia, behind.filter fun t => !t.isTrivia, ?_,
    fun hnil => ?_, fun t ht => ?_, fun hopen => ?_, fun hopen => ?_, hlies.opensEmpty_eq_false⟩
  · rw [Tree.Node.significantTokens, htokens, List.filter_append, List.filter_append]
    rfl
  · cases hopen : n.opensEmpty with
    | true =>
      rw [hempty hopen, hstop, Tree.Token.lastStop_append, hlast _ n.tokens]
      change _ = (n.significantTokens.getLast?.map _).getD _
      rw [hnil]
      rfl
    | false =>
      obtain ⟨t, us, htokens, -⟩ := htoken hopen
      rw [hnil] at htokens
      cases htokens
  · rw [hstop, Tree.Token.lastStop_append, hlast _ n.tokens]
    change (n.significantTokens.getLast?.map _).getD _ = _
    rw [ht]
    rfl
  · obtain ⟨t, us, htokens, hstart, hcontains⟩ := htoken hopen
    exact ⟨t, by rw [htokens]; rfl, hstart, hcontains⟩
  · rw [hempty hopen, hlast]

/-- Here the name of a variable is missing, so that its node opens with an empty one. -/
theorem span_of_parseWithin_nameless : ∃ p, parseWithin {} "var = 5".toList = .ok p ∧
    ∀ n ∈ p.tree.root.descendants, ∃ before behind,
      p.tree.root.significantTokens = before ++ n.significantTokens ++ behind ∧
      (n.significantTokens = [] → n.span.start = n.span.stop) ∧
      (∀ t, n.significantTokens.getLast? = some t → n.span.stop = t.span.stop) ∧
      (n.opensEmpty = false → ∃ t, n.significantTokens.head? = some t ∧
        n.span.start = t.span.start ∧ n.fullSpan.contains n.span = true) ∧
      (n.opensEmpty = true →
        n.span.start = (before.getLast?.map fun t => t.span.stop).getD 0) ∧
      (p.diagnostics = [] → n.opensEmpty = false) := by
  obtain ⟨p, hp, -⟩ := exists_parseWithin (Limits.endless_maxDepth _) "var = 5".toList
  exact ⟨p, hp, span_of_parseWithin hp⟩

/-- That node does not begin where its first token does. -/
theorem span_start_ne_nameless : ∃ p, parseWithin {} "var = 5".toList = .ok p ∧
    ∃ n ∈ p.tree.root.descendants, ∃ t, n.significantTokens.head? = some t ∧
      n.kind = .variableDeclarator ∧ n.span = ⟨3, 7⟩ ∧ t.span = ⟨4, 5⟩ := by
  obtain ⟨p, hp, -⟩ := exists_parseWithin (Limits.endless_maxDepth 256) "var = 5".toList
  obtain ⟨n, hn, htest⟩ := exists_descendant hp (fun n =>
    n.kind == .variableDeclarator && n.span == ⟨3, 7⟩ &&
      n.significantTokens.head?.any fun t => t.span == ⟨4, 5⟩) (by decide +kernel)
  rw [Bool.and_eq_true, Bool.and_eq_true, Option.any_eq_true] at htest
  obtain ⟨⟨hkind, hspan⟩, t, ht, htoken⟩ := htest
  exact ⟨p, hp, n, hn, t, ht, eq_of_beq hkind, eq_of_beq hspan, eq_of_beq htoken⟩

end ActionScript
