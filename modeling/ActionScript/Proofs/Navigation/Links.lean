import Mathlib.Data.List.Nodup
import Mathlib.Data.List.Pairwise
import ActionScript.Proofs.Navigation.Descent

/-!
# How a tree hangs together

What stands beside a child and above it, which tokens are below a node, what belongs to a token and
which tokens are beside it are asked for in different ways, but the answers agree: they are all read
off one row of children, or off the row of all tokens.

* `Progress.numbered_layAll`: leaves are numbered in the order in which they are laid out.
* `Tree.Node.flanked_of_split`: **what is around a child, read off the row of children.**
* `Tree.Node.flatMap_run_tokens`: the row of tokens is that of the tokens with a place, each with
  its trivia.
* `Tree.linked_ofStem`: **every tree hangs together.**
-/

set_option autoImplicit false

namespace ActionScript

/-! ## Numbers -/

/-- The leaves are numbered one after the other, and the next number is free. -/
structure Leaf.Numbered (first : Nat) (ls : List Leaf) (next : Nat) : Prop where
  indices : ls.map Leaf.index = List.range' first ls.length
  next_eq : next = first + ls.length

theorem Leaf.Numbered.append {ls ms : List Leaf} {first mid next : Nat}
    (h₁ : Leaf.Numbered first ls mid)
    (h₂ : Leaf.Numbered mid ms next) : Leaf.Numbered first (ls ++ ms) next := by
  obtain ⟨hfront, rfl⟩ := h₁
  obtain ⟨hbehind, rfl⟩ := h₂
  refine ⟨?_, ?_⟩
  · rw [List.map_append, hfront, hbehind, List.range'_append_1, List.length_append]
  · rw [List.length_append, Nat.add_assoc]

namespace Progress

theorem numbered_leaf (p : Progress) (kind : Kind) (field : Option Field) (text : Text) :
    Leaf.Numbered p.leaves [(p.leaf kind field text).1] (p.leaf kind field text).2.leaves :=
  ⟨rfl, rfl⟩

theorem numbered_trivia (p : Progress) (ts : List Trivia) :
    Leaf.Numbered p.leaves (p.trivia ts).1 (p.trivia ts).2.leaves := by
  induction ts generalizing p with
  | nil => exact ⟨rfl, rfl⟩
  | cons t ts ih => exact (p.numbered_leaf t.kind.kind none t.text).append (ih _)

theorem numbered_cluster (p : Progress) (kind : Kind) (field : Option Field) (leading : List Trivia)
    (text : Text) (trailing : List Trivia) :
    Leaf.Numbered p.leaves (p.cluster kind field leading text trailing).1.leaves
      (p.cluster kind field leading text trailing).2.leaves := by
  let q : Progress := ((p.trivia leading).2.leaf kind field text).2
  have hbehind := numbered_trivia { q with tokenEnd := q.offset } trailing
  exact (p.numbered_trivia leading).append
    (((p.trivia leading).2.numbered_leaf kind field text).append hbehind)

mutual

theorem numbered_lay (p : Progress) (s : Shape) :
    Leaf.Numbered p.leaves ((p.lay s).1.clusters.flatMap Cluster.leaves) (p.lay s).2.leaves := by
  cases s with
  | token kind field leading text trailing =>
    rw [lay, Item.clusters, List.flatMap_cons, List.flatMap_nil, List.append_nil]
    exact p.numbered_cluster kind field leading text trailing
  | node kind field children =>
    rw [lay, Item.clusters]
    exact numbered_layAll { p with nodes := p.nodes + 1 } children

/-- **Leaves are numbered in the order in which they are laid out.** -/
theorem numbered_layAll (p : Progress) (ss : List Shape) :
    Leaf.Numbered p.leaves ((Item.clustersAll (p.layAll ss).1).flatMap Cluster.leaves)
      (p.layAll ss).2.leaves := by
  cases ss with
  | nil =>
    rw [layAll, Item.clustersAll]
    exact ⟨rfl, rfl⟩
  | cons s ss =>
    rw [layAll, Item.clustersAll, List.flatMap_append]
    exact (numbered_lay p s).append (numbered_layAll (p.lay s).2 ss)

end

end Progress

namespace Tree

/-- The tokens of a tree are numbered from zero on. -/
theorem map_index_tokens (text : Text) (root : Stem) :
    (ofStem text root).tokens.map (fun t => t.leaf.index) =
      List.range (ofStem text root).tokens.length := by
  have hnumbered :
      Leaf.Numbered 0 ((Item.clustersAll (ofStem text root).root.children).flatMap Cluster.leaves)
      (ofStem text root).leafCount := Progress.numbered_layAll { nodes := 1 } root.children.reverse
  have hindices := hnumbered.indices
  rw [← Node.map_leaf_tokens, List.map_map, List.length_map] at hindices
  rw [tokens, List.range_eq_range']
  exact hindices

/-- The number of a token is the number of tokens in front of it. -/
theorem index_of_split {text : Text} {root : Stem} {before behind : List Token} {t : Token}
    (h : (ofStem text root).tokens = before ++ t :: behind) : t.leaf.index = before.length := by
  have hindices := map_index_tokens text root
  rw [h] at hindices
  have hplace := congrArg (·[before.length]?) hindices
  simpa using hplace

/-- A token without a place is a piece of trivia; any other was told by the stream. -/
def Token.Told (events : List Event) (t : Token) : Prop :=
  (t.slot = none ∧ t.isTrivia = true) ∨
    (t.slot ≠ none ∧ ∃ leading trailing, .token t.kind t.field leading t.leaf.text.size
      trailing ∈ events)

/-! ## Children -/

section
variable {α : Type} {row before behind : List α} {a : α}

theorem getElem?_succ_of_split (h : row = before ++ a :: behind) :
    row[before.length + 1]? = behind.head? := by
  rw [h, List.getElem?_append_right (Nat.le_succ _),
    show before.length + 1 - before.length = 1 by omega]
  exact List.getElem?_cons_succ.trans List.head?_eq_getElem?.symm

theorem getElem?_pred_of_split (h : row = before ++ a :: behind) :
    (if before.length = 0 then none else row[before.length - 1]?) = before.getLast? := by
  split
  · next hzero => rw [List.length_eq_zero_iff.1 hzero]; rfl
  · next hzero => rw [h, List.getElem?_append_left (by omega), List.getLast?_eq_getElem?]

end

namespace Node

/-- Where a child stands among the children of its parent: what is in front of it and behind it, and
which nodes come first there. -/
structure Flanked (p : Node) (before : List Element) (e : Element)
    (behind : List Element) : Prop where
  parent : e.parent? = some p
  place : e.slot? = some before.length
  found : p.elementAt? before.length = some e
  next : e.next? = behind.head?
  prev : e.prev? = before.getLast?
  nextNode : ∀ d, e = .node d → d.nextNode? = (behind.filterMap Element.node?).head?
  prevNode : ∀ d, e = .node d → d.prevNode? = (before.filterMap Element.node?).getLast?

/-- **What is around a child is read off the row of children.** -/
theorem flanked_of_split {p : Node} {before behind : List Element} {e : Element}
    (h : p.elements = before ++ e :: behind) : p.Flanked before e behind := by
  have hat : p.elements[before.length]? = some e := by simp [h]
  have hplace := isChildAt_of_getElem? hat
  refine ⟨hplace.parent, hplace.place, (p.elementAt?_eq _).trans hat,
    hplace.next.trans (getElem?_succ_of_split h),
    hplace.prev.trans (getElem?_pred_of_split h), ?_, ?_⟩
  · rintro d rfl
    have hparent : d.parent? = some p := hplace.parent
    have hslot : d.slot? = some before.length := hplace.place
    have hdrop : p.elements.drop (before.length + 1) = behind := by simp [h]
    rw [nextNode?, hparent, hslot]
    show (p.elements.drop (before.length + 1)).findSome? Element.node? = _
    rw [hdrop, List.head?_filterMap]
  · rintro d rfl
    have hparent : d.parent? = some p := hplace.parent
    have hslot : d.slot? = some before.length := hplace.place
    have htake : p.elements.take before.length = before := by simp [h]
    rw [prevNode?, hparent, hslot]
    show (p.elements.take before.length).reverse.findSome? Element.node? = _
    rw [htake, ← List.head?_reverse, ← List.filterMap_reverse, List.head?_filterMap]

/-! ## Trivia -/

mutual

theorem flatMap_run_tokensOf (n : Node) (slot : Nat) (i : Item) :
    ((n.tokensOf slot i).filter fun t => t.slot.isSome).flatMap Token.run = n.tokensOf slot i := by
  cases i with
  | token c =>
    have hdrop (ls : List Leaf) : (ls.map n.trivia).filter (fun t => t.slot.isSome) = [] := by
      simp [trivia]
    have hkeep : (n.token slot c).slot.isSome = true := rfl
    rw [tokensOf, clusterTokens, List.filter_append, hdrop, List.filter_cons, if_pos hkeep, hdrop]
    exact List.append_nil _
  | node info children =>
    rw [tokensOf]
    exact flatMap_run_tokensFrom _ 0 children

theorem flatMap_run_tokensFrom (n : Node) (slot : Nat) (is : List Item) :
    ((n.tokensFrom slot is).filter fun t => t.slot.isSome).flatMap Token.run =
      n.tokensFrom slot is := by
  cases is with
  | nil => rw [tokensFrom]; rfl
  | cons i is =>
    rw [tokensFrom, List.filter_append, List.flatMap_append, flatMap_run_tokensOf n slot i,
      flatMap_run_tokensFrom n (slot + 1) is]

end

/-- **The row of tokens is that of the tokens with a place**, each with its trivia around it. -/
theorem flatMap_run_tokens (n : Node) :
    (n.tokens.filter fun t => t.slot.isSome).flatMap Token.run = n.tokens :=
  n.flatMap_run_tokensFrom 0 n.children

mutual

theorem told_of_mem_tokensOf (n : Node) (slot : Nat) (p : Progress) (s : Shape) {t : Token}
    (ht : t ∈ n.tokensOf slot (p.lay s).1) : t.Told s.events := by
  cases s with
  | token kind field leading text trailing =>
    obtain ⟨hlead, hkind, hfield, htext, -, htrail⟩ :=
      (p.shows_cluster kind field leading text trailing).1
    rw [Progress.lay, tokensOf, clusterTokens, List.mem_append, List.mem_cons, List.mem_map,
      List.mem_map] at ht
    rcases ht with ⟨l, hl, rfl⟩ | rfl | ⟨l, hl, rfl⟩
    · exact .inl ⟨rfl, hlead.isTrivia l hl⟩
    · refine .inr ⟨Option.some_ne_none slot, leading.map Trivia.measure,
        trailing.map Trivia.measure, ?_⟩
      rw [Shape.events, ← htext, ← hkind, ← hfield]
      exact List.mem_cons_self
    · exact .inl ⟨rfl, htrail.isTrivia l hl⟩
  | node kind field children =>
    rw [Progress.lay, tokensOf] at ht
    have htold := told_of_mem_tokensFrom _ 0 { p with nodes := p.nodes + 1 } children ht
    refine htold.imp_right fun ⟨hslot, leading, trailing, hevent⟩ => ⟨hslot, leading, trailing, ?_⟩
    rw [Shape.events]
    exact List.mem_cons_of_mem _ (List.mem_append_left _ hevent)

theorem told_of_mem_tokensFrom (n : Node) (slot : Nat) (p : Progress) (ss : List Shape) {t : Token}
    (ht : t ∈ n.tokensFrom slot (p.layAll ss).1) : t.Told (Shape.eventsAll ss) := by
  cases ss with
  | nil =>
    rw [Progress.layAll, tokensFrom] at ht
    cases ht
  | cons s ss =>
    rw [Progress.layAll, tokensFrom, List.mem_append] at ht
    rw [Shape.eventsAll]
    rcases ht with ht | ht
    · refine (told_of_mem_tokensOf n slot p s ht).imp_right
        fun ⟨hslot, leading, trailing, hevent⟩ => ⟨hslot, leading, trailing, ?_⟩
      exact List.mem_append_left _ hevent
    · refine (told_of_mem_tokensFrom n (slot + 1) (p.lay s).2 ss ht).imp_right
        fun ⟨hslot, leading, trailing, hevent⟩ => ⟨hslot, leading, trailing, ?_⟩
      exact List.mem_append_right _ hevent

end

end Node

/-! ## The whole tree -/

/-- Around the root there is nothing; what is around any other element is read off the row of
children that it stands in.  The tokens of a node are those of its children; each piece of trivia
belongs to one token, and has no place of its own.  And the tokens beside a token are those beside
it in the row of all tokens, so the one behind and the one before are each other's. -/
structure Linked (t : Tree) : Prop where
  root : t.root.parent? = none ∧ t.root.next? = none ∧ t.root.prev? = none ∧
  t.root.nextNode? = none ∧
    t.root.prevNode? = none
  children : ∀ p ∈ t.root.descendants, ∀ before e behind, p.elements = before ++ e :: behind →
    p.Flanked before e behind
  tokens : ∀ p ∈ t.root.descendants, p.tokens = p.elements.flatMap Element.tokens
  trivia : ∀ v ∈ t.tokens, v.slot = none → v.isTrivia = true ∧ v.next? = none ∧ v.prev? = none ∧
    ∃! u, u ∈ t.tokens ∧ u.slot ≠ none ∧ v ∈ u.leadingTokens ++ u.trailingTokens
  row : ∀ before u behind, t.tokens = before ++ u :: behind →
    t.nextToken? u = behind.head? ∧ t.prevToken? u = before.getLast?
  inverse : ∀ u ∈ t.tokens, ∀ v ∈ t.tokens, t.nextToken? u = some v ↔ t.prevToken? v = some u

section
variable {text : Text} {root : Stem} {u v : Token}

theorem row_of_split {before behind : List Token}
    (h : (ofStem text root).tokens = before ++ u :: behind) :
    (ofStem text root).nextToken? u = behind.head? ∧
    (ofStem text root).prevToken? u = before.getLast? := by
  have hindex := index_of_split h
  refine ⟨?_, ?_⟩
  · rw [nextToken?, hindex]
    exact getElem?_succ_of_split h
  · rw [← getElem?_pred_of_split h, prevToken?, hindex]
    cases before.length <;> rfl

/-- The token behind the token before one is that one, and the other way round. -/
theorem nextToken?_eq_some_iff (hu : u ∈ (ofStem text root).tokens)
    (hv : v ∈ (ofStem text root).tokens) :
    (ofStem text root).nextToken? u = some v ↔ (ofStem text root).prevToken? v = some u := by
  constructor
  · intro h
    obtain ⟨before, behind, hrow⟩ := List.append_of_mem hu
    rw [(row_of_split hrow).1, List.head?_eq_some_iff] at h
    obtain ⟨rest, rfl⟩ := h
    have hnext : (ofStem text root).tokens = (before ++ [u]) ++ v :: rest := by simp [hrow]
    rw [(row_of_split hnext).2]
    exact List.getLast?_concat
  · intro h
    obtain ⟨before, behind, hrow⟩ := List.append_of_mem hv
    rw [(row_of_split hrow).2, List.getLast?_eq_some_iff] at h
    obtain ⟨rest, rfl⟩ := h
    have hprev : (ofStem text root).tokens = rest ++ u :: v :: behind := by simp [hrow]
    rw [(row_of_split hprev).1]
    rfl

theorem nodup_tokens (text : Text) (root : Stem) : (ofStem text root).tokens.Nodup := by
  refine List.Nodup.of_map (fun t => t.leaf.index) ?_
  rw [map_index_tokens]
  exact List.nodup_range

/-- **A piece of trivia belongs to exactly one token.** -/
theorem existsUnique_owner (hv : v ∈ (ofStem text root).tokens) (hslot : v.slot = none) :
    ∃! u, u ∈ (ofStem text root).tokens ∧ u.slot ≠ none ∧
      v ∈ u.leadingTokens ++ u.trailingTokens := by
  have hruns := (ofStem text root).root.flatMap_run_tokens
  have hnodup := nodup_tokens text root
  rw [tokens] at hv hnodup ⊢
  rw [← hruns, List.nodup_flatMap] at hnodup
  have hrun {u : Token} : v ∈ u.run ↔ v = u ∨ v ∈ u.leadingTokens ++ u.trailingTokens := by
    rw [Token.run, List.mem_append, List.mem_cons, List.mem_append]
    tauto
  rw [← hruns, List.mem_flatMap] at hv
  obtain ⟨u, hu, huv⟩ := hv
  have hplace := List.mem_filter.1 hu
  refine ⟨u, ⟨hplace.1, Option.isSome_iff_ne_none.1 hplace.2, ?_⟩, ?_⟩
  · rcases hrun.1 huv with rfl | h
    · exact absurd hslot (Option.isSome_iff_ne_none.1 hplace.2)
    · exact h
  · rintro w ⟨hw, hwslot, hwv⟩
    by_contra hne
    have hwplace : w ∈ (ofStem text root).root.tokens.filter fun t => t.slot.isSome :=
      List.mem_filter.2 ⟨hw, Option.isSome_iff_ne_none.2 hwslot⟩
    have : Std.Symm (Function.onFun List.Disjoint Token.run) :=
      ⟨fun _ _ h _ hleft hright => h hright hleft⟩
    have hdisjoint := hnodup.2.forall hwplace hu hne
    exact hdisjoint (hrun.2 (.inr hwv)) huv

theorem told_of_mem_tokens (hu : u ∈ (ofStem text root).tokens) : u.Told root.shape.events := by
  have htold := Node.told_of_mem_tokensFrom _ 0 { nodes := 1 } root.children.reverse hu
  refine htold.imp_right fun ⟨hslot, leading, trailing, hevent⟩ => ⟨hslot, leading, trailing, ?_⟩
  rw [Stem.shape, Shape.events]
  exact List.mem_cons_of_mem _ (List.mem_append_left _ hevent)

/-- **Every tree hangs together.** -/
theorem linked_ofStem (text : Text) (root : Stem) : (ofStem text root).Linked where
  root := ⟨rfl, rfl, rfl, rfl, rfl⟩
  children _ _ _ _ _ := Node.flanked_of_split
  tokens p _ := p.tokens_eq
  trivia v hv hslot := by
    have hkind : v.isTrivia = true := (told_of_mem_tokens hv).elim (·.2) fun h => absurd hslot h.1
    refine ⟨hkind, ?_, ?_, existsUnique_owner hv hslot⟩
    · rw [Token.next?, hslot]; rfl
    · rw [Token.prev?, hslot]
  row _ _ _ := row_of_split
  inverse _ hu _ hv := nextToken?_eq_some_iff hu hv

end

end Tree

end ActionScript
