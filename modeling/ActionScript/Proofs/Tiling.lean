import ActionScript.Proofs.Events
import ActionScript.Proofs.Outcome

/-!
# Children tile their node

With all trivia, the children of a node lie end to end from where the node begins to where it ends.
Without the trivia at their ends they lie inside the node, one behind the other.  An empty node sits
at the end of the last token before it, so that end has to be kept in view while shapes are laid
out.

* `Span.Tile`, `Span.Follow`: spans end to end, and spans one behind the other.
* `Progress.Advance`: what laying out gives, closed under laying out more.
* `tiled_of_built`: **every node of every tree is tiled by its children.**
-/

set_option autoImplicit false

namespace ActionScript

/-! ## Rows of spans -/

namespace Span

/-- The spans lie end to end from the first offset to the second one. -/
def Tile : Nat → List Span → Nat → Prop
  | start, [], stop => start = stop
  | start, s :: ss, stop => s.start = start ∧ s.start ≤ s.stop ∧ Tile s.stop ss stop

/-- The spans lie one behind the other from the first offset on, and the last one ends at the
second. -/
def Follow : Nat → List Span → Nat → Prop
  | start, [], stop => start = stop
  | start, s :: ss, stop => start ≤ s.start ∧ s.start ≤ s.stop ∧ Follow s.stop ss stop

variable {ss ts : List Span} {start mid stop : Nat}

theorem Tile.append (h₁ : Tile start ss mid) (h₂ : Tile mid ts stop) :
    Tile start (ss ++ ts) stop := by
  induction ss generalizing start with
  | nil =>
    obtain rfl := h₁
    exact h₂
  | cons s ss ih => exact ⟨h₁.1, h₁.2.1, ih h₁.2.2⟩

theorem Follow.append (h₁ : Follow start ss mid) (h₂ : Follow mid ts stop) :
    Follow start (ss ++ ts) stop := by
  induction ss generalizing start with
  | nil =>
    obtain rfl := h₁
    exact h₂
  | cons s ss ih => exact ⟨h₁.1, h₁.2.1, ih h₁.2.2⟩

theorem Tile.le (h : Tile start ss stop) : start ≤ stop := by
  induction ss generalizing start with
  | nil => exact Nat.le_of_eq h
  | cons s ss ih =>
    obtain ⟨rfl, hproper, hrest⟩ := h
    exact Nat.le_trans hproper (ih hrest)

theorem Follow.le (h : Follow start ss stop) : start ≤ stop := by
  induction ss generalizing start with
  | nil => exact Nat.le_of_eq h
  | cons s ss ih => exact Nat.le_trans (Nat.le_trans h.1 h.2.1) (ih h.2.2)

/-- All spans lie between the two offsets. -/
theorem Tile.mem (h : Tile start ss stop) {s : Span} (hs : s ∈ ss) :
    start ≤ s.start ∧ s.start ≤ s.stop ∧ s.stop ≤ stop := by
  induction ss generalizing start with
  | nil => cases hs
  | cons t ss ih =>
    obtain ⟨rfl, hproper, hrest⟩ := h
    cases hs with
    | head => exact ⟨Nat.le_refl _, hproper, hrest.le⟩
    | tail _ hs =>
      have := ih hrest hs
      exact ⟨by omega, this.2⟩

theorem Follow.mem (h : Follow start ss stop) {s : Span} (hs : s ∈ ss) :
    start ≤ s.start ∧ s.start ≤ s.stop ∧ s.stop ≤ stop := by
  induction ss generalizing start with
  | nil => cases hs
  | cons t ss ih =>
    obtain ⟨hfirst, hproper, hrest⟩ := h
    cases hs with
    | head => exact ⟨hfirst, hproper, hrest.le⟩
    | tail _ hs =>
      have := ih hrest hs
      exact ⟨by omega, this.2⟩

theorem Follow.isChain (h : Follow start ss stop) : ss.IsChain fun s t => s.stop ≤ t.start := by
  induction ss generalizing start with
  | nil => exact .nil
  | cons s ss ih =>
    cases ss with
    | nil => exact .singleton s
    | cons t ss => exact .cons_cons h.2.2.1 (ih h.2.2)

/-- Spans one behind the other are covered from where the first one begins. -/
theorem Follow.foldl_cover {s : Span} (h : Follow s.stop ss stop) (hs : s.start ≤ s.stop) :
    ss.foldl cover s = ⟨s.start, stop⟩ := by
  induction ss generalizing s with
  | nil =>
    obtain rfl := h
    rfl
  | cons t ss ih =>
    obtain ⟨hfirst, hproper, hrest⟩ := h
    have hcover : s.cover t = ⟨s.start, t.stop⟩ := by
      simp only [cover, mk.injEq]
      omega
    rw [List.foldl_cons, hcover]
    exact ih (s := ⟨s.start, t.stop⟩) hrest (Nat.le_trans hs (Nat.le_trans hfirst hproper))

end Span

/-! ## Leaves of a token -/

/-- Leaves that lie one behind the other begin and end where their row does. -/
theorem Leaf.Contiguous.bounds {ls : List Leaf} {start stop : Nat}
    (h : Leaf.Contiguous start ls stop) (hne : ls ≠ []) :
    (ls.head hne).start = start ∧ (ls.getLast hne).span.stop = stop := by
  induction ls generalizing start with
  | nil => exact absurd rfl hne
  | cons l ls ih =>
    obtain ⟨hstart, hrest⟩ := h
    refine ⟨hstart, ?_⟩
    cases ls with
    | nil =>
      rw [List.getLast_singleton, Leaf.span, hstart]
      exact hrest
    | cons m ms =>
      rw [List.getLast_cons (List.cons_ne_nil m ms)]
      exact (ih hrest (List.cons_ne_nil m ms)).2

theorem Cluster.leaves_ne_nil (c : Cluster) : c.leaves ≠ [] := by
  simp [leaves]

/-- A token with its trivia reaches from its first leaf to its last one. -/
theorem Cluster.fullSpan_eq (c : Cluster) : c.fullSpan =
    ⟨(c.leaves.head c.leaves_ne_nil).start, (c.leaves.getLast c.leaves_ne_nil).span.stop⟩ := by
  obtain ⟨leading, leaf, trailing⟩ := c
  have hhead : (leading.head?.getD leaf).start =
      ((leading ++ leaf :: trailing).head (by simp)).start := by
    cases leading <;> rfl
  have hlast : (trailing.getLast?.getD leaf).span.stop =
      ((leading ++ leaf :: trailing).getLast (by simp)).span.stop := by
    rw [List.getLast_append_of_ne_nil _ (List.cons_ne_nil leaf trailing)]
    cases trailing with
    | nil => rfl
    | cons l ls =>
      rw [List.getLast?_eq_some_getLast (List.cons_ne_nil l ls),
        List.getLast_cons (List.cons_ne_nil l ls)]
      rfl
  simp only [fullSpan, leaves, hhead, hlast]

theorem Cluster.Shows.fullSpan {c : Cluster} {offset : Nat} {s : Shape} (h : c.Shows offset s) :
    c.fullSpan = ⟨offset, offset + s.source.size⟩ := by
  obtain ⟨hstart, hstop⟩ := h.contiguous.bounds c.leaves_ne_nil
  rw [c.fullSpan_eq, hstart, hstop]

/-! ## Laying out -/

/-- Where a child lies, trivia included. -/
def Item.fullSpan : Item → Span
  | .token c => c.fullSpan
  | .node info _ => info.full

namespace Progress

/-- No token ends behind the offset that has been reached. -/
def Settled (p : Progress) : Prop := p.tokenEnd ≤ p.offset

/-- Items laid out between `p` and `q`: with their trivia they lie end to end, and without it one
behind the other. -/
structure Advance (p q : Progress) (items : List Item) : Prop where
  settled : q.Settled
  tile : Span.Tile p.offset (items.map Item.fullSpan) q.offset
  follow : Span.Follow p.tokenEnd (items.map Item.span) q.tokenEnd

theorem Advance.append {p q r : Progress} {is js : List Item} (h₁ : p.Advance q is)
    (h₂ : q.Advance r js) : p.Advance r (is ++ js) where
  settled := h₂.settled
  tile := by
    rw [List.map_append]
    exact h₁.tile.append h₂.tile
  follow := by
    rw [List.map_append]
    exact h₁.follow.append h₂.follow

theorem trivia_tokenEnd (p : Progress) (ts : List Trivia) :
    (p.trivia ts).2.tokenEnd = p.tokenEnd := by
  induction ts generalizing p with
  | nil => rfl
  | cons t ts ih => exact ih (p.leaf t.kind.kind none t.text).2

theorem cluster_tokenEnd (p : Progress) (kind : Kind) (field : Option Field) (leading : List Trivia)
    (text : Text) (trailing : List Trivia) :
    (p.cluster kind field leading text trailing).2.tokenEnd =
      (p.cluster kind field leading text trailing).1.leaf.span.stop := by
  rw [cluster]
  exact trivia_tokenEnd _ trailing

theorem advance_cluster {p : Progress} (h : p.Settled) (kind : Kind) (field : Option Field)
    (leading : List Trivia) (text : Text) (trailing : List Trivia) :
    p.Advance (p.cluster kind field leading text trailing).2
      [.token (p.cluster kind field leading text trailing).1] := by
  obtain ⟨hshows, hoffset⟩ := p.shows_cluster kind field leading text trailing
  have hend := p.cluster_tokenEnd kind field leading text trailing
  have hfull := hshows.fullSpan
  obtain ⟨-, -, -, htext, hstart, -⟩ := hshows
  generalize p.cluster kind field leading text trailing = laid at *
  have hsource : (Shape.token kind field leading text trailing).source.size =
      (Trivia.flatten leading).size + text.size + (Trivia.flatten trailing).size := by
    simp [Shape.source, Nat.add_assoc]
  have hstop : laid.1.leaf.span.stop = p.offset + (Trivia.flatten leading).size + text.size := by
    rw [Leaf.span, hstart, htext]
  unfold Settled at h
  refine ⟨?_, ⟨?_, ?_, ?_⟩, ⟨?_, ?_, ?_⟩⟩
  · rw [Settled, hend, hstop, hoffset, hsource]
    omega
  · rw [Item.fullSpan, hfull]
  · rw [Item.fullSpan, hfull]
    exact Nat.le_add_right _ _
  · rw [Item.fullSpan, hfull, hoffset]
    rfl
  · rw [Item.span, Leaf.span, hstart]
    simp only
    omega
  · exact Nat.le_add_right _ _
  · rw [hend]
    rfl

/-- A node with children spans from where the first one begins to where the last token ends. -/
theorem Advance.info_span_cons {p q : Progress} {i : Item} {is : List Item}
    (h : p.Advance q (i :: is)) (r : Progress) (kind : Kind) (field : Option Field) :
    (r.info q kind field (i :: is)).span = ⟨i.span.start, q.tokenEnd⟩ := by
  obtain ⟨-, hproper, hrest⟩ := h.follow
  rw [← hrest.foldl_cover hproper, List.foldl_map, info]

/-- What a node spans once its children are laid out. -/
theorem Advance.info_span {p q : Progress} {items : List Item} (h : p.Advance q items)
    (r : Progress) (kind : Kind) (field : Option Field) :
    p.tokenEnd ≤ (r.info q kind field items).span.start ∧
      Span.Follow (r.info q kind field items).span.start (items.map Item.span)
        (r.info q kind field items).span.stop ∧
      (r.info q kind field items).span.stop = q.tokenEnd := by
  have hfollow := h.follow
  cases items with
  | nil =>
    refine ⟨Nat.le_of_eq hfollow, rfl, rfl⟩
  | cons i is =>
    obtain ⟨hfirst, hproper, hrest⟩ := hfollow
    rw [h.info_span_cons r kind field]
    exact ⟨hfirst, ⟨Nat.le_refl _, hproper, hrest⟩, rfl⟩

mutual

theorem advance_lay {p : Progress} (h : p.Settled) (s : Shape) :
    p.Advance (p.lay s).2 [(p.lay s).1] := by
  cases s with
  | token kind field leading text trailing =>
    rw [lay]
    exact advance_cluster h kind field leading text trailing
  | node kind field children =>
    have hbelow := advance_layAll (p := { p with nodes := p.nodes + 1 }) h children
    rw [lay]
    obtain ⟨hfirst, hspan, hstop⟩ := hbelow.info_span p kind field
    have hle := hbelow.tile.le
    refine ⟨hbelow.settled, ⟨rfl, hle, rfl⟩, ⟨hfirst, ?_, hstop⟩⟩
    exact hspan.le

/-- **Shapes that are laid out in a row advance together.** -/
theorem advance_layAll {p : Progress} (h : p.Settled) (ss : List Shape) :
    p.Advance (p.layAll ss).2 (p.layAll ss).1 := by
  cases ss with
  | nil =>
    rw [layAll]
    exact ⟨h, rfl, rfl⟩
  | cons s ss =>
    have hfirst := advance_lay h s
    rw [layAll]
    exact hfirst.append (advance_layAll hfirst.settled ss)

end

end Progress

/-! ## Nodes -/

namespace Tree

/-- The children of a node tile it, and without the trivia at their ends they lie inside it, one
behind the other. -/
structure Node.Tiled (n : Node) : Prop where
  tile : Span.Tile n.fullSpan.start (n.elements.map Element.fullSpan) n.fullSpan.stop
  proper : n.span.start ≤ n.span.stop
  contains : ∀ e ∈ n.elements, n.span.contains e.span = true
  chain : (n.elements.map Element.span).IsChain fun s t => s.stop ≤ t.start

namespace Node

theorem map_fullSpan_elements (n : Node) :
    n.elements.map Element.fullSpan = n.children.map Item.fullSpan := by
  have hfull (slot : Nat) (i : Item) : (n.element slot i).fullSpan = i.fullSpan := by
    cases i <;> rfl
  refine List.ext_getElem? fun slot => ?_
  simp [elements, hfull, Function.comp_def]

theorem map_span_elements (n : Node) : n.elements.map Element.span = n.children.map Item.span := by
  have hspan (slot : Nat) (i : Item) : (n.element slot i).span = i.span := by
    cases i <;> rfl
  refine List.ext_getElem? fun slot => ?_
  simp [elements, hspan, Function.comp_def]

/-- A node that knows what its children were laid out to is tiled by them. -/
theorem tiled_of_advance {n : Node} {p q r : Progress} {kind : Kind} {field : Option Field}
    (hinfo : n.info = r.info q kind field n.children) (hoffset : r.offset = p.offset)
    (h : p.Advance q n.children) : n.Tiled := by
  obtain ⟨-, hspan, -⟩ := h.info_span r kind field
  rw [← hinfo, ← map_span_elements] at hspan
  have hfull : n.fullSpan = ⟨p.offset, q.offset⟩ := by
    rw [fullSpan, hinfo, ← hoffset]
    rfl
  refine ⟨?_, hspan.le, fun e he => ?_, hspan.isChain⟩
  · rw [hfull, map_fullSpan_elements]
    exact h.tile
  · obtain ⟨hstart, -, hstop⟩ := hspan.mem (List.mem_map_of_mem he)
    rw [Span.contains, Bool.and_eq_true, decide_eq_true_eq, decide_eq_true_eq]
    exact ⟨hstart, hstop⟩

mutual

theorem tiled_of_mem_nodesOf {n m : Node} {slot : Nat} {p : Progress} {s : Shape} (hp : p.Settled)
    (hm : m ∈ n.nodesOf slot (p.lay s).1) : m.Tiled := by
  cases s with
  | token kind field leading text trailing =>
    rw [Progress.lay, nodesOf] at hm
    cases hm
  | node kind field children =>
    have hbelow := Progress.advance_layAll (p := { p with nodes := p.nodes + 1 }) hp children
    rw [Progress.lay, nodesOf] at hm
    rcases List.mem_cons.1 hm with rfl | hm
    · exact tiled_of_advance (p := { p with nodes := p.nodes + 1 }) (r := p) rfl rfl hbelow
    · exact tiled_of_mem_nodesFrom (p := { p with nodes := p.nodes + 1 }) hp hm

/-- **All nodes below laid out shapes are tiled.** -/
theorem tiled_of_mem_nodesFrom {n m : Node} {slot : Nat} {p : Progress} {ss : List Shape}
    (hp : p.Settled) (hm : m ∈ n.nodesFrom slot (p.layAll ss).1) : m.Tiled := by
  cases ss with
  | nil =>
    rw [Progress.layAll, nodesFrom] at hm
    cases hm
  | cons s ss =>
    rw [Progress.layAll, nodesFrom, List.mem_append] at hm
    rcases hm with hm | hm
    · exact tiled_of_mem_nodesOf hp hm
    · exact tiled_of_mem_nodesFrom (Progress.advance_lay hp s).settled hm

end

end Node

theorem tiled_ofStem (text : Text) (root : Stem) :
    ∀ n ∈ (ofStem text root).root.descendants, n.Tiled := by
  have hstart : Progress.Settled { nodes := 1 } := Nat.le_refl 0
  intro n hn
  rcases List.mem_cons.1 hn with rfl | hn
  · exact Node.tiled_of_advance (p := { nodes := 1 }) (r := {}) rfl rfl
      (Progress.advance_layAll hstart root.children.reverse)
  · exact Node.tiled_of_mem_nodesFrom (p := { nodes := 1 }) hstart hn

end Tree

/-! ## Every tree -/

/-- The tree of a parse, and that of a stream which is accepted, is that of its root. -/
theorem Tree.exists_stem_of_built [Alphabet] {tree : Tree}
    (h : (∃ limits text diagnostics, parseWithin limits text = .ok ⟨tree, diagnostics⟩) ∨
      ∃ text events, Tree.ofEvents? text events = .ok tree) :
    ∃ text root, tree = Tree.ofStem text root := by
  rcases h with ⟨limits, text, diagnostics, hparse⟩ | ⟨text, events, hevents⟩
  · obtain ⟨modes, kids, last, hout⟩ := State.run_outcome (aborted_of_parseWithin hparse)
    rw [hout.parseWithin_eq (aborted_of_parseWithin hparse)] at hparse
    cases hparse
    exact ⟨text, _, rfl⟩
  · obtain ⟨root, -, -, rfl⟩ := Tree.ofEvents?_eq_ok.1 hevents
    exact ⟨text, root, rfl⟩

/-- **Every node of every tree is tiled by its children**, be the tree that of a parse or that of
any stream which is accepted. -/
theorem tiled_of_built [Alphabet] {tree : Tree}
    (h : (∃ limits text diagnostics, parseWithin limits text = .ok ⟨tree, diagnostics⟩) ∨
      ∃ text events, Tree.ofEvents? text events = .ok tree) :
    ∀ n ∈ tree.root.descendants, n.Tiled := by
  obtain ⟨text, root, rfl⟩ := Tree.exists_stem_of_built h
  exact Tree.tiled_ofStem text root

/-- An operand is missing here, so an empty node stands behind the operator. -/
theorem tiled_of_built_missing : ∃ p, parseWithin {} "x = ;".toList = .ok p ∧
    ∀ n ∈ p.tree.root.descendants, n.Tiled := by
  obtain ⟨p, hp, -⟩ := exists_parseWithin (Limits.endless_maxDepth _) "x = ;".toList
  exact ⟨p, hp, tiled_of_built (.inl ⟨_, _, _, hp⟩)⟩

end ActionScript
