import ActionScript.Proofs.Consumption
import ActionScript.Tree.Node

/-!
# Where a shape is laid out

Laid out over its text, a shape keeps its tokens in order, each at the offset that the text before
it adds up to, with the pieces of trivia around it.

* `Progress.laid_layAll`: **the tokens of the laid out shapes are those of the shapes**, one behind
  the other.
* `Laid.contiguous`, `Laid.flatMap_text`: so all leaves follow on each other and make up the text.
* `Tree.Node.map_leaf_tokens`, `Tree.Node.map_cluster_significantTokens`: the tokens of a tree are
  those leaves.
-/

set_option autoImplicit false

namespace ActionScript

/-! ## Leaves in place -/

/-- The leaves show the pieces, one behind the other from the offset on. -/
def Leaf.ShowPieces : Nat → List Trivia → List Leaf → Prop
  | _, [], [] => True
  | offset, t :: ts, l :: ls =>
    l.kind = t.kind.kind ∧ l.text = t.text ∧ l.start = offset ∧
      ShowPieces (offset + t.text.size) ts ls
  | _, _, _ => False

/-- The leaves lie one behind the other, from the first offset up to the second one. -/
def Leaf.Contiguous : Nat → List Leaf → Nat → Prop
  | start, [], stop => start = stop
  | start, l :: ls, stop => l.start = start ∧ Contiguous (start + l.text.size) ls stop

theorem Leaf.Contiguous.append {ls ms : List Leaf} {start mid stop : Nat}
    (h₁ : Leaf.Contiguous start ls mid) (h₂ : Leaf.Contiguous mid ms stop) :
    Leaf.Contiguous start (ls ++ ms) stop := by
  induction ls generalizing start with
  | nil =>
    obtain rfl := h₁
    exact h₂
  | cons l ls ih => exact ⟨h₁.1, ih h₁.2⟩

namespace Leaf.ShowPieces

theorem contiguous {ts : List Trivia} {ls : List Leaf} {offset : Nat}
    (h : Leaf.ShowPieces offset ts ls) :
    Leaf.Contiguous offset ls (offset + (Trivia.flatten ts).size) := by
  induction ts generalizing offset ls with
  | nil =>
    cases ls with
    | nil => rfl
    | cons l ls => exact h.elim
  | cons t ts ih =>
    cases ls with
    | nil => exact h.elim
    | cons l ls =>
      obtain ⟨-, htext, hstart, hrest⟩ := h
      refine ⟨hstart, ?_⟩
      have := ih hrest
      rw [htext]
      simpa [Trivia.flatten, Nat.add_assoc] using this

theorem flatMap_text {ts : List Trivia} {ls : List Leaf} {offset : Nat}
    (h : Leaf.ShowPieces offset ts ls) : ls.flatMap Leaf.text = Trivia.flatten ts := by
  induction ts generalizing offset ls with
  | nil =>
    cases ls with
    | nil => rfl
    | cons l ls => exact h.elim
  | cons t ts ih =>
    cases ls with
    | nil => exact h.elim
    | cons l ls =>
      obtain ⟨-, htext, -, hrest⟩ := h
      have := ih hrest
      simp_all [Trivia.flatten]

/-- Pieces of trivia are no tokens. -/
theorem isTrivia {ts : List Trivia} {ls : List Leaf} {offset : Nat}
    (h : Leaf.ShowPieces offset ts ls) : ∀ l ∈ ls, l.kind.isTrivia = true := by
  induction ts generalizing offset ls with
  | nil =>
    cases ls with
    | nil => simp
    | cons l ls => exact h.elim
  | cons t ts ih =>
    cases ls with
    | nil => exact h.elim
    | cons l ls =>
      obtain ⟨hkind, -, -, hrest⟩ := h
      rintro m (_ | ⟨_, hm⟩)
      · rw [hkind]
        cases t.kind <;> rfl
      · exact ih hrest m hm

end Leaf.ShowPieces

/-! ## Clusters in place -/

/-- The cluster shows a token from the offset on. -/
def Cluster.Shows (c : Cluster) (offset : Nat) : Shape → Prop
  | .token kind field leading text trailing =>
    Leaf.ShowPieces offset leading c.leading ∧
    c.leaf.kind = kind ∧ c.leaf.field = field ∧ c.leaf.text = text ∧
    c.leaf.start = offset + (Trivia.flatten leading).size ∧
    Leaf.ShowPieces (offset + (Trivia.flatten leading).size + text.size) trailing c.trailing
  | .node .. => False

theorem Cluster.Shows.contiguous {c : Cluster} {offset : Nat} {s : Shape} (h : c.Shows offset s) :
    Leaf.Contiguous offset c.leaves (offset + s.source.size) := by
  cases s with
  | node kind field children => exact h.elim
  | token kind field leading text trailing =>
    obtain ⟨hlead, -, -, htext, hstart, htrail⟩ := h
    refine hlead.contiguous.append ⟨hstart, ?_⟩
    rw [htext]
    have := htrail.contiguous
    simpa [Shape.source, Nat.add_assoc] using this

theorem Cluster.Shows.flatMap_text {c : Cluster} {offset : Nat} {s : Shape}
    (h : c.Shows offset s) : c.leaves.flatMap Leaf.text = s.source := by
  cases s with
  | node kind field children => exact h.elim
  | token kind field leading text trailing =>
    obtain ⟨hlead, -, -, htext, -, htrail⟩ := h
    simp [Cluster.leaves, Shape.source, hlead.flatMap_text, htrail.flatMap_text, htext]

/-- The clusters show the tokens, one behind the other, from the first offset up to the second. -/
inductive Laid : Nat → List Shape → List Cluster → Nat → Prop
  | nil (offset : Nat) : Laid offset [] [] offset
  | cons {offset stop : Nat} {s : Shape} {ss : List Shape} {c : Cluster} {cs : List Cluster} :
      c.Shows offset s → Laid (offset + s.source.size) ss cs stop →
      Laid offset (s :: ss) (c :: cs) stop

namespace Laid

theorem append {ss ts : List Shape} {cs ds : List Cluster} {start mid stop : Nat}
    (h₁ : Laid start ss cs mid) (h₂ : Laid mid ts ds stop) :
    Laid start (ss ++ ts) (cs ++ ds) stop := by
  induction h₁ with
  | nil => exact h₂
  | cons h _ ih => exact .cons h (ih h₂)

theorem contiguous {ss : List Shape} {cs : List Cluster} {start stop : Nat}
    (h : Laid start ss cs stop) : Leaf.Contiguous start (cs.flatMap Cluster.leaves) stop := by
  induction h with
  | nil => rfl
  | cons h _ ih => exact h.contiguous.append ih

theorem offset_eq {ss : List Shape} {cs : List Cluster} {start stop : Nat}
    (h : Laid start ss cs stop) : stop = start + (Shape.sourceAll ss).size := by
  induction h with
  | nil => rw [Shape.sourceAll, Text.size_nil, Nat.add_zero]
  | cons _ _ ih => rw [ih, Shape.sourceAll, Text.size_append, Nat.add_assoc]

theorem flatMap_text {ss : List Shape} {cs : List Cluster} {start stop : Nat}
    (h : Laid start ss cs stop) :
    (cs.flatMap Cluster.leaves).flatMap Leaf.text = Shape.sourceAll ss := by
  induction h with
  | nil => simp [Shape.sourceAll]
  | cons h _ ih => simp [Shape.sourceAll, h.flatMap_text, ih]

/-- Each cluster shows one of the tokens. -/
theorem exists_shows {ss : List Shape} {cs : List Cluster} {start stop : Nat}
    (h : Laid start ss cs stop) {c : Cluster} (hc : c ∈ cs) :
    ∃ s ∈ ss, ∃ offset, c.Shows offset s := by
  induction h with
  | nil => cases hc
  | cons h _ ih =>
    cases hc with
    | head => exact ⟨_, List.mem_cons_self, _, h⟩
    | tail _ hc =>
      obtain ⟨s, hs, hshows⟩ := ih hc
      exact ⟨s, List.mem_cons_of_mem _ hs, hshows⟩

end Laid

/-- In the cluster exactly the token itself is no trivia. -/
def Cluster.Proper (c : Cluster) : Prop :=
  c.leaf.kind.isTrivia = false ∧ (∀ l ∈ c.leading, l.kind.isTrivia = true) ∧
    ∀ l ∈ c.trailing, l.kind.isTrivia = true

theorem Cluster.Shows.proper {c : Cluster} {offset : Nat} {s : Shape} (h : c.Shows offset s)
    (hs : s.kind.isTrivia = false) : c.Proper := by
  cases s with
  | node kind field children => exact h.elim
  | token kind field leading text trailing =>
    obtain ⟨hlead, hkind, -, -, -, htrail⟩ := h
    exact ⟨hkind ▸ hs, hlead.isTrivia, htrail.isTrivia⟩

/-! ## Laying out -/

mutual

/-- The clusters of an item in source order. -/
def Item.clusters : Item → List Cluster
  | .token c => [c]
  | .node _ children => Item.clustersAll children

/-- The clusters of several items in a row. -/
def Item.clustersAll : List Item → List Cluster
  | [] => []
  | i :: is => i.clusters ++ Item.clustersAll is

end

namespace Progress

theorem showPieces_trivia (p : Progress) (ts : List Trivia) :
    Leaf.ShowPieces p.offset ts (p.trivia ts).1 ∧
      (p.trivia ts).2.offset = p.offset + (Trivia.flatten ts).size := by
  induction ts generalizing p with
  | nil => exact ⟨trivial, rfl⟩
  | cons t ts ih =>
    obtain ⟨hshow, hoffset⟩ := ih (p.leaf t.kind.kind none t.text).2
    refine ⟨⟨rfl, rfl, rfl, hshow⟩, ?_⟩
    rw [trivia]
    simp only [hoffset]
    simp [leaf, Trivia.flatten, Nat.add_assoc]

theorem shows_cluster (p : Progress) (kind : Kind) (field : Option Field) (leading : List Trivia)
    (text : Text) (trailing : List Trivia) :
    (p.cluster kind field leading text trailing).1.Shows p.offset
        (.token kind field leading text trailing) ∧
      (p.cluster kind field leading text trailing).2.offset =
        p.offset + (Shape.token kind field leading text trailing).source.size := by
  obtain ⟨hlead, hoffset⟩ := p.showPieces_trivia leading
  let q : Progress := ((p.trivia leading).2.leaf kind field text).2
  have hq : q.offset = p.offset + (Trivia.flatten leading).size + text.size := by
    rw [← hoffset]
    rfl
  obtain ⟨htrail, hend⟩ := showPieces_trivia { q with tokenEnd := q.offset } trailing
  refine ⟨⟨hlead, rfl, rfl, rfl, hoffset, hq ▸ htrail⟩, hend.trans ?_⟩
  change q.offset + _ = _
  rw [hq]
  simp [Shape.source, Nat.add_assoc]

mutual

/-- **The tokens of a laid out shape are those of the shape**, one behind the other. -/
theorem laid_lay (p : Progress) (s : Shape) :
    Laid p.offset s.tokens (p.lay s).1.clusters (p.lay s).2.offset := by
  cases s with
  | token kind field leading text trailing =>
    obtain ⟨hshows, hoffset⟩ := p.shows_cluster kind field leading text trailing
    rw [Shape.tokens_token, lay, Item.clusters]
    refine .cons hshows ?_
    rw [hoffset]
    exact .nil _
  | node kind field children =>
    rw [Shape.tokens_node, lay, Item.clusters]
    exact laid_layAll { p with nodes := p.nodes + 1 } children

theorem laid_layAll (p : Progress) (ss : List Shape) :
    Laid p.offset (Shape.tokensAll ss) (Item.clustersAll (p.layAll ss).1)
      (p.layAll ss).2.offset := by
  cases ss with
  | nil =>
    rw [Shape.tokensAll, layAll, Item.clustersAll]
    exact .nil _
  | cons s ss =>
    rw [Shape.tokensAll, layAll, Item.clustersAll]
    exact (laid_lay p s).append (laid_layAll (p.lay s).2 ss)

end

end Progress

theorem Shape.sourceAll_append (ss ts : List Shape) :
    Shape.sourceAll (ss ++ ts) = Shape.sourceAll ss ++ Shape.sourceAll ts := by
  induction ss with
  | nil => simp [Shape.sourceAll]
  | cons s ss ih => simp [Shape.sourceAll, ih]

mutual

/-- The source of a shape is that of its tokens. -/
theorem Shape.sourceAll_tokens (s : Shape) : Shape.sourceAll s.tokens = s.source := by
  cases s with
  | token kind field leading text trailing => simp [Shape.sourceAll]
  | node kind field children =>
    rw [Shape.tokens_node, Shape.source]
    exact Shape.sourceAll_tokensAll children

theorem Shape.sourceAll_tokensAll (ss : List Shape) :
    Shape.sourceAll (Shape.tokensAll ss) = Shape.sourceAll ss := by
  cases ss with
  | nil => rw [Shape.tokensAll]
  | cons s ss =>
    rw [Shape.tokensAll, Shape.sourceAll, Shape.sourceAll_append, Shape.sourceAll_tokens s,
      Shape.sourceAll_tokensAll ss]

end

namespace Progress

/-- What is laid out of shapes is laid out of one of them, behind those in front of it. -/
theorem exists_split_of_mem {p : Progress} {ss : List Shape} {i : Item} (h : i ∈ (p.layAll ss).1) :
    ∃ before s behind, ss = before ++ s :: behind ∧ i = ((p.layAll before).2.lay s).1 := by
  induction ss generalizing p with
  | nil =>
    rw [layAll] at h
    cases h
  | cons s ss ih =>
    rw [layAll, List.mem_cons] at h
    rcases h with rfl | h
    · exact ⟨[], s, ss, rfl, by rw [layAll]⟩
    · obtain ⟨before, t, behind, rfl, hi⟩ := ih h
      exact ⟨s :: before, t, behind, rfl, by rw [layAll, hi]⟩

theorem offset_layAll (p : Progress) (ss : List Shape) :
    (p.layAll ss).2.offset = p.offset + (Shape.sourceAll ss).size := by
  rw [(p.laid_layAll ss).offset_eq, Shape.sourceAll_tokensAll]

theorem offset_lay (p : Progress) (s : Shape) : (p.lay s).2.offset = p.offset + s.source.size := by
  rw [(p.laid_lay s).offset_eq, Shape.sourceAll_tokens]

end Progress

/-! ## Tokens of trees -/

namespace Tree

/-- The token with its pieces of trivia. -/
def Token.cluster (t : Tree.Token) : Cluster := ⟨t.leading, t.leaf, t.trailing⟩

namespace Node

mutual

/-- The tokens below a child are the leaves of its clusters. -/
theorem map_leaf_tokensOf (n : Node) (slot : Nat) (i : Item) :
    (n.tokensOf slot i).map Tree.Token.leaf = i.clusters.flatMap Cluster.leaves := by
  cases i with
  | token c => simp [tokensOf, Item.clusters, clusterTokens, Cluster.leaves, trivia, token,
      Function.comp_def]
  | node info children =>
    rw [tokensOf, Item.clusters]
    exact map_leaf_tokensFrom _ 0 children

theorem map_leaf_tokensFrom (n : Node) (slot : Nat) (is : List Item) :
    (n.tokensFrom slot is).map Tree.Token.leaf = (Item.clustersAll is).flatMap Cluster.leaves := by
  cases is with
  | nil => simp [tokensFrom, Item.clustersAll]
  | cons i is =>
    rw [tokensFrom, Item.clustersAll, List.map_append, List.flatMap_append,
      map_leaf_tokensOf n slot i, map_leaf_tokensFrom n (slot + 1) is]

end

mutual

theorem map_cluster_tokensOf (n : Node) (slot : Nat) (i : Item)
    (h : ∀ c ∈ i.clusters, c.Proper) :
    ((n.tokensOf slot i).filter fun t => !t.isTrivia).map Tree.Token.cluster = i.clusters := by
  cases i with
  | token c =>
    rw [Item.clusters] at h
    obtain ⟨hleaf, hlead, htrail⟩ := h c List.mem_cons_self
    have hdrop (ls : List Leaf) (hls : ∀ l ∈ ls, l.kind.isTrivia = true) :
        (ls.map n.trivia).filter (fun t => !t.isTrivia) = [] := by
      simpa [Tree.Token.isTrivia, Tree.Token.kind, trivia] using hls
    have hkeep : (!(n.token slot c).isTrivia) = true := by
      simpa [Tree.Token.isTrivia, Tree.Token.kind, token] using hleaf
    rw [tokensOf, Item.clusters, clusterTokens, List.filter_append, hdrop _ hlead,
      List.filter_cons, if_pos hkeep, hdrop _ htrail]
    rfl
  | node info children =>
    rw [Item.clusters] at h ⊢
    rw [tokensOf]
    exact map_cluster_tokensFrom _ 0 children h

theorem map_cluster_tokensFrom (n : Node) (slot : Nat) (is : List Item)
    (h : ∀ c ∈ Item.clustersAll is, c.Proper) :
    ((n.tokensFrom slot is).filter fun t => !t.isTrivia).map Tree.Token.cluster =
      Item.clustersAll is := by
  cases is with
  | nil => simp [tokensFrom, Item.clustersAll]
  | cons i is =>
    rw [Item.clustersAll] at h ⊢
    rw [tokensFrom, List.filter_append, List.map_append,
      map_cluster_tokensOf n slot i fun c hc => h c (List.mem_append_left _ hc),
      map_cluster_tokensFrom n (slot + 1) is fun c hc => h c (List.mem_append_right _ hc)]

end

/-- **The tokens of a node are the leaves of its clusters.** -/
theorem map_leaf_tokens (n : Node) :
    n.tokens.map Tree.Token.leaf = (Item.clustersAll n.children).flatMap Cluster.leaves :=
  n.map_leaf_tokensFrom 0 n.children

/-- **The tokens of a node that are no trivia are its clusters.** -/
theorem map_cluster_significantTokens (n : Node)
    (h : ∀ c ∈ Item.clustersAll n.children, c.Proper) :
    n.significantTokens.map Tree.Token.cluster = Item.clustersAll n.children :=
  n.map_cluster_tokensFrom 0 n.children h

end Node

end Tree

end ActionScript
