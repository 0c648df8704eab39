import ActionScript.Proofs.Trimming

/-!
# What a tree says of tags and of signs

In the tree of a parse every start tag and every vector literal begins with the sign that it was
recognized by.  That is a `<`, or a longer operator that starts with one: at an operand the choice
between the two looks at the text as operators, and the token stays as it was looked at last.  Where
nothing is reported, the tags of an element belong together.

* `Tree.Token.IsSign`: a token of a kind, spelled as that kind is.
* `opening_of_parseWithin`: **what start tags and vector literals begin with.**
* `Tree.Node.IsTag`: a tag, seen from its children.
* `matched_of_parseWithin`: **without a report every element closes itself or has an end tag, and
  two names that are written out agree.**
-/

set_option autoImplicit false

namespace ActionScript

namespace Tree

/-- A token is of a kind, and spelled as that kind is. -/
structure Token.IsSign (t : Token) (kind : Kind) : Prop where
  kind_eq : t.kind = kind
  text_eq : t.leaf.text = kind.text

/-- The kind and the text of a token. -/
def Token.sign (t : Token) : Kind × Text := (t.kind, t.leaf.text)

end Tree

/-! ## Shapes in a tree -/

namespace Laid

/-- The tokens that are laid out are those of the shapes, by kind and text. -/
theorem map_sign {offset stop : Nat} {ss : List Shape} {cs : List Cluster}
    (h : Laid offset ss cs stop) :
    cs.map (fun c => (c.leaf.kind, c.leaf.text)) = ss.filterMap Shape.sign? := by
  induction h with
  | nil => rfl
  | @cons _ _ s _ _ _ hshows _ ih =>
    cases s with
    | token kind field leading text trailing =>
      obtain ⟨-, hkind, -, htext, -, -⟩ := hshows
      rw [List.map_cons, ih, hkind, htext]
      rfl
    | node kind field children => exact hshows.elim

end Laid

namespace Progress

/-- What is laid out of shapes is laid out of one of them. -/
theorem exists_lay_of_mem {p : Progress} {ss : List Shape} {i : Item} (h : i ∈ (p.layAll ss).1) :
    ∃ q : Progress, ∃ s ∈ ss, i = (q.lay s).1 := by
  induction ss generalizing p with
  | nil =>
    rw [layAll] at h
    cases h
  | cons s ss ih =>
    rw [layAll, List.mem_cons] at h
    rcases h with rfl | h
    · exact ⟨p, s, List.mem_cons_self, rfl⟩
    · obtain ⟨q, t, ht, hi⟩ := ih h
      exact ⟨q, t, List.mem_cons_of_mem _ ht, hi⟩

end Progress

namespace Item

theorem mem_clustersAll {is : List Item} {i : Item} {c : Cluster} (hi : i ∈ is)
    (hc : c ∈ i.clusters) : c ∈ clustersAll is := by
  induction is with
  | nil => cases hi
  | cons j is ih =>
    rw [clustersAll, List.mem_append]
    rcases List.mem_cons.1 hi with rfl | hi
    · exact .inl hc
    · exact .inr (ih hi)

end Item

namespace Tree.Node

variable {n m : Node} {p : Progress} {ss : List Shape}

/-- The tokens of a node that is laid out, by kind and text. -/
theorem map_sign_significantTokens (hchildren : n.children = (p.layAll ss).1)
    (hproper : ∀ c ∈ Item.clustersAll n.children, c.Proper) :
    n.significantTokens.map Token.sign = Shape.signs ss := by
  have hclusters := n.map_cluster_significantTokens hproper
  rw [hchildren] at hclusters
  rw [Shape.signs, ← (p.laid_layAll ss).map_sign, ← hclusters, List.map_map]
  rfl

/-- The first tokens of a node that is laid out are told by the shapes. -/
theorem exists_significantTokens (hchildren : n.children = (p.layAll ss).1)
    (hproper : ∀ c ∈ Item.clustersAll n.children, c.Proper) {k : Kind} {text : Text}
    {more : List (Kind × Text)} (h : Shape.signs ss = (k, text) :: more) :
    ∃ t ts, n.significantTokens = t :: ts ∧ t.kind = k ∧ t.leaf.text = text ∧
      ts.map Token.sign = more := by
  rw [← map_sign_significantTokens hchildren hproper] at h
  obtain ⟨t, ts, htokens, hsign, hmore⟩ := List.map_eq_cons_iff.1 h
  exact ⟨t, ts, htokens, congrArg Prod.fst hsign, congrArg Prod.snd hsign, hmore⟩

/-- A child node has one of the shapes that the node was laid out from. -/
theorem exists_shape_of_mem_nodes (hchildren : n.children = (p.layAll ss).1) (hm : m ∈ n.nodes) :
    ∃ (q : Progress) (kids : List Shape), .node m.kind m.field kids ∈ ss ∧
      m.children = (q.layAll kids).1 ∧
      ∀ c ∈ Item.clustersAll m.children, c ∈ Item.clustersAll n.children := by
  obtain ⟨e, he, hnode⟩ := List.mem_filterMap.1 hm
  obtain ⟨slot, hslot, rfl⟩ := List.mem_mapIdx.1 he
  have hmem := List.getElem_mem hslot
  generalize n.children[slot] = i at hnode hmem
  have hlaid := hmem
  rw [hchildren] at hlaid
  obtain ⟨q, s, hs, rfl⟩ := Progress.exists_lay_of_mem hlaid
  cases s with
  | token kind field leading text trailing =>
    rw [Progress.lay] at hnode
    cases hnode
  | node kind field kids =>
    rw [Progress.lay] at hnode hmem
    cases hnode
    refine ⟨{ q with nodes := q.nodes + 1 }, kids, hs, rfl, fun c hc => ?_⟩
    exact Item.mem_clustersAll hmem (by rwa [Item.clusters])

/-- A node that is laid out is made of the shapes. -/
theorem isMadeOf_of_children (hchildren : n.children = (p.layAll ss).1) : n.IsMadeOf n.kind ss where
  kind_eq := rfl
  elements := by
    rw [elements, hchildren]
    exact Element.haveShapes_iff.1 (haveShapes_layAll n id p ss)

end Tree.Node

/-! ## What tags and literals begin with -/

/-- **What start tags and vector literals begin with.**  The first token of a start tag is a `<` or
a longer operator that starts with it, spelled as such.  So is the first token of a vector literal,
unless that is `new`; then a lone `<` follows.  An element between the tags of another begins with a
lone `<`. -/
theorem opening_of_parseWithin [Alphabet] {limits : Limits} {text : Text} {p : Parse}
    (h : parseWithin limits text = .ok p) :
    ∀ n ∈ p.tree.root.descendants,
      (n.kind = .xmlStartTag → ∃ k ∈ Kind.openers, ∃ t ts, n.significantTokens = t :: ts ∧
        t.IsSign k) ∧
      (n.kind = .vectorLiteral →
        (∃ k ∈ Kind.openers, ∃ t ts, n.significantTokens = t :: ts ∧ t.IsSign k) ∨
        ∃ new t ts, n.significantTokens = new :: t :: ts ∧ new.kind = .newKw ∧ t.IsSign .lt) ∧
      (n.kind = .xmlElement → ∀ m ∈ n.nodes, m.kind = .xmlElement →
        ∃ t ts, m.significantTokens = t :: ts ∧ t.IsSign .lt) := by
  intro n hn
  obtain ⟨-, -, q, kids, -, -, -, hchildren, -, -, hproper, hevery⟩ :=
    liesIn_of_parseWithin h n hn
  rw [Shape.Every] at hevery
  obtain ⟨hcrafted, -⟩ := hevery
  have hfirst : (∃ k ∈ Kind.openers, ∃ more, Shape.signs kids = (k, k.text) :: more) →
      ∃ k ∈ Kind.openers, ∃ t ts, n.significantTokens = t :: ts ∧ t.IsSign k := by
    rintro ⟨k, hk, more, hmore⟩
    obtain ⟨t, ts, htokens, hkind, htext, -⟩ :=
      Tree.Node.exists_significantTokens hchildren hproper hmore
    exact ⟨k, hk, t, ts, htokens, hkind, htext⟩
  refine ⟨fun hkind => hfirst (hcrafted.opening hkind), fun hkind => ?_,
    fun hkind m hm hnested => ?_⟩
  · refine (hcrafted.vector hkind).imp hfirst ?_
    rintro ⟨word, more, hmore⟩
    obtain ⟨new, us, htokens, hnew, -, hus⟩ :=
      Tree.Node.exists_significantTokens hchildren hproper hmore
    obtain ⟨t, ts, rfl, hsign, -⟩ := List.map_eq_cons_iff.1 hus
    exact ⟨new, t, ts, htokens, hnew, congrArg Prod.fst hsign, congrArg Prod.snd hsign⟩
  · obtain ⟨r, inner, hinner, hkids, hsub⟩ := Tree.Node.exists_shape_of_mem_nodes hchildren hm
    obtain ⟨more, hmore⟩ := hcrafted.nested hkind _ hinner hnested
    rw [Shape.signs_node] at hmore
    obtain ⟨t, ts, htokens, ht, htext, -⟩ :=
      Tree.Node.exists_significantTokens hkids (fun c hc => hproper c (hsub c hc)) hmore
    exact ⟨t, ts, htokens, ht, htext⟩

/-- Here a start tag is written with two signs. -/
theorem opening_of_parseWithin_shifted : ∃ p, parseWithin {} "<<a/>".toList = .ok p ∧
    ∀ n ∈ p.tree.root.descendants,
      (n.kind = .xmlStartTag → ∃ k ∈ Kind.openers, ∃ t ts, n.significantTokens = t :: ts ∧
        t.IsSign k) ∧
      (n.kind = .vectorLiteral →
        (∃ k ∈ Kind.openers, ∃ t ts, n.significantTokens = t :: ts ∧ t.IsSign k) ∨
        ∃ new t ts, n.significantTokens = new :: t :: ts ∧ new.kind = .newKw ∧ t.IsSign .lt) ∧
      (n.kind = .xmlElement → ∀ m ∈ n.nodes, m.kind = .xmlElement →
        ∃ t ts, m.significantTokens = t :: ts ∧ t.IsSign .lt) := by
  obtain ⟨p, hp, -⟩ := exists_parseWithin (Limits.endless_maxDepth 256) "<<a/>".toList
  exact ⟨p, hp, opening_of_parseWithin hp⟩

/-- That tag does not begin with a lone `<`, and nothing is reported. -/
theorem not_lone_shifted : ∃ p, parseWithin {} "<<a/>".toList = .ok p ∧ p.diagnostics = [] ∧
    ∃ n ∈ p.tree.root.descendants, ∃ t ts, n.kind = .xmlStartTag ∧
      n.significantTokens = t :: ts ∧ t.IsSign .shl := by
  obtain ⟨p, hp, hclean⟩ := exists_clean_parse {} "<<a/>".toList (by decide +kernel)
  obtain ⟨n, hn, htest⟩ := exists_descendant hp (fun n => n.kind == .xmlStartTag &&
    n.significantTokens.head?.any fun t => t.sign == (.shl, Kind.shl.text)) (by decide +kernel)
  rw [Bool.and_eq_true, Option.any_eq_true] at htest
  obtain ⟨hkind, t, ht, hsign⟩ := htest
  obtain ⟨ts, hts⟩ := List.head?_eq_some_iff.1 ht
  exact ⟨p, hp, hclean, n, hn, t, ts, eq_of_beq hkind, hts,
    congrArg Prod.fst (eq_of_beq hsign), congrArg Prod.snd (eq_of_beq hsign)⟩

/-! ## Tags that belong together -/

namespace Tree.Node

/-- A node is a tag of a kind, in the slot for it, and ends in a token of the kind `last`.  If it
has no name, it has no attributes. -/
structure IsTag (n : Node) (kind : Kind) (field : Field) (last : Kind) : Prop where
  kind_eq : n.kind = kind
  field_eq : n.field = some field
  getLast? : ∃ t, n.elements.getLast? = some (.token t) ∧ t.kind = last
  bare : n.inField .name = [] → n.inField .attribute = []

/-- Two tags do not have different names that are written out. -/
def Agree (n m : Node) : Prop :=
  ∀ a b, n.tokenIn? .name = some a → m.tokenIn? .name = some b → a.leaf.text = b.leaf.text

/-- An element is its start tag, which ends in `/>`, or it has a start tag and an end tag that
agree, and content in between. -/
def IsMatched (n : Node) : Prop :=
  ∃ o : Node, (n.elements = [.node o] ∧ o.IsTag .xmlStartTag .openTag .slashGt) ∨
    ∃ (content : List Element) (c : Node), n.elements = .node o :: content ++ [.node c] ∧
      o.IsTag .xmlStartTag .openTag .gt ∧ c.IsTag .xmlEndTag .closeTag .gt ∧
      (∀ e ∈ content, e.field = some .content) ∧ o.Agree c

variable {n : Node} {name name' : Option Text} {last : Kind}

/-- The last of some elements has the last of their shapes. -/
theorem exists_last {es : List Element} {ss : List Shape} {s : Shape}
    (h : List.Forall₂ Element.HasShape es (ss ++ [s])) :
    ∃ es' e, es = es' ++ [e] ∧ List.Forall₂ Element.HasShape es' ss ∧ e.HasShape s := by
  have hreverse := List.rel_reverse h
  rw [List.reverse_concat] at hreverse
  obtain ⟨e, es', he, hes, heq⟩ := List.forall₂_cons_right_iff.1 hreverse
  refine ⟨es'.reverse, e, ?_, ?_, he⟩
  · rw [← List.reverse_reverse es, heq, List.reverse_cons]
  · rwa [← List.forall₂_reverse_iff, List.reverse_reverse]

/-- A node with the shape of another, in the slot of that. -/
theorem exists_isMadeOf_field {e : Element} {kind : Kind} {field : Option Field} {ss : List Shape}
    (h : e.HasShape (.node kind field ss)) :
    ∃ n, e = .node n ∧ n.IsMadeOf kind ss ∧ n.field = field := by
  obtain ⟨n, rfl, hn⟩ := exists_isMadeOf h
  exact ⟨n, rfl, hn, h.field_eq⟩

/-- **A tag of a tree is made like its shape**, and has the name that is written out there. -/
theorem IsMadeOf.isTag {kind : Kind} {field : Field} {tag : List Shape} (h : n.IsMadeOf kind tag)
    (hfield : n.field = some field) (htag : Shape.IsTag name last tag) :
    n.IsTag kind field last ∧ (n.tokenIn? .name).map (fun t => t.leaf.text) = name := by
  obtain ⟨opening, names, attributes, closing, rfl, hopening, hpart, hattributes, hbare,
    leading, text, trailing, rfl⟩ := htag
  have hnone (f : Field) (hf : f ≠ .attribute) :
      attributes.filter (fun s => s.slot? == some f) = [] :=
    List.filter_eq_nil_iff.2 fun s hs => by simpa [hattributes s hs] using hf.symm
  have hall : attributes.filter (fun s => s.slot? == some Field.attribute) = attributes :=
    List.filter_eq_self.2 fun s hs => by simp [hattributes s hs]
  have hname : (opening :: names ++ attributes ++
      [Shape.token last none leading text trailing]).filter (fun s => s.slot? == some Field.name) =
        names := by
    cases hpart <;> simp [List.filter_append, hopening, hnone .name (by decide)]
  have hattribute : (opening :: names ++ attributes ++
      [Shape.token last none leading text trailing]).filter
        (fun s => s.slot? == some Field.attribute) = attributes := by
    cases hpart <;> simp [List.filter_append, hopening, hall]
  refine ⟨⟨h.kind_eq, hfield, ?_, fun hnil => ?_⟩, ?_⟩
  · obtain ⟨es, e, helements, -, he⟩ := exists_last h.elements
    rw [Element.HasShape] at he
    obtain ⟨t, rfl, hkind, -⟩ := he
    exact ⟨t, by rw [helements, List.getLast?_concat], hkind⟩
  · have hnames := h.inField .name
    rw [hnil, hname, List.forall₂_nil_left_iff] at hnames
    have hin := h.inField .attribute
    rw [hattribute, hbare hnames] at hin
    exact List.forall₂_nil_right_iff.1 hin
  · cases hpart with
    | written name leading trailing =>
      obtain ⟨t, ht, -, -, htext⟩ := h.exists_token hname
      rw [ht, Option.map_some, htext]
    | given children =>
      have hin := h.inField .name
      rw [hname] at hin
      obtain ⟨e, es, he, hes, helements⟩ := List.forall₂_cons_right_iff.1 hin
      obtain ⟨m, rfl, -⟩ := exists_isMadeOf he
      rw [List.forall₂_nil_right_iff.1 hes] at helements
      rw [tokenIn?, helements]
      rfl
    | absent =>
      rw [h.tokenIn?_eq_none hname]
      rfl

/-- **An element is matched like its shape.** -/
theorem IsMadeOf.isMatched {ss : List Shape} (h : n.IsMadeOf .xmlElement ss)
    (hss : Shape.Matched ss) : n.IsMatched := by
  obtain ⟨name, tag, ⟨rfl, htag⟩ | ⟨content, name', tag', rfl, htag, htag', hcontent, hagree⟩⟩ :=
    hss
  · obtain ⟨e, es, he, hes, helements⟩ := List.forall₂_cons_right_iff.1 h.elements
    obtain ⟨o, rfl, ho, hfield⟩ := exists_isMadeOf_field he
    rw [List.forall₂_nil_right_iff.1 hes] at helements
    exact ⟨o, .inl ⟨helements, (ho.isTag hfield htag).1⟩⟩
  · obtain ⟨e, es, he, hes, helements⟩ := List.forall₂_cons_right_iff.1 h.elements
    obtain ⟨o, rfl, ho, hfield⟩ := exists_isMadeOf_field he
    obtain ⟨inner, last, rfl, hinner, hlast⟩ := exists_last hes
    obtain ⟨c, rfl, hc, hfield'⟩ := exists_isMadeOf_field hlast
    obtain ⟨hopen, hname⟩ := ho.isTag hfield htag
    obtain ⟨hclose, hname'⟩ := hc.isTag hfield' htag'
    refine ⟨o, .inr ⟨inner, c, helements, hopen, hclose, fun e he => ?_, fun a b ha hb => ?_⟩⟩
    · obtain ⟨s, hs, hshape⟩ := exists_rel_of_mem hinner.flip he
      rw [hshape.field_eq, hcontent s hs]
    · rw [ha] at hname
      rw [hb] at hname'
      exact hagree _ _ hname.symm hname'.symm

end Tree.Node

/-- **Where nothing is reported, every element closes itself or has an end tag**, and two names that
are written out agree.  A tag without a name has no attributes.  Nothing is said of a name that is
missing on one side only. -/
theorem matched_of_parseWithin [Alphabet] {limits : Limits} {text : Text} {p : Parse}
    (h : parseWithin limits text = .ok p) (hclean : p.diagnostics = []) :
    ∀ n ∈ p.tree.root.descendants, n.kind = .xmlElement → n.IsMatched := by
  intro n hn hkind
  obtain ⟨-, -, q, kids, -, -, -, hchildren, -, -, -, hevery⟩ := liesIn_of_parseWithin h n hn
  rw [Shape.Every] at hevery
  have hmade := Tree.Node.isMadeOf_of_children hchildren
  rw [hkind] at hmade
  exact hmade.isMatched (hevery.1.matched hclean hkind)

/-- An element in another. -/
theorem matched_of_parseWithin_nested : ∃ p, parseWithin {} "x = <a>{b}<c/></a>;".toList = .ok p ∧
    p.diagnostics = [] ∧ ∀ n ∈ p.tree.root.descendants, n.kind = .xmlElement → n.IsMatched := by
  obtain ⟨p, hp, hclean⟩ := exists_clean_parse {} "x = <a>{b}<c/></a>;".toList (by decide +kernel)
  exact ⟨p, hp, hclean, matched_of_parseWithin hp hclean⟩

/-- A list may be closed by an end tag with a name, and nothing is reported. -/
theorem list_closed_by_name :
    ∃ p, parseWithin {} "x = <></a>;".toList = .ok p ∧ p.diagnostics = [] ∧
    ∃ n ∈ p.tree.root.descendants, ∃ o c a, n.kind = .xmlElement ∧
      n.child? .openTag (.only .xmlStartTag) = some o ∧ o.inField .name = [] ∧
      n.child? .closeTag (.only .xmlEndTag) = some c ∧ c.tokenIn? .name = some a ∧
      a.leaf.text = ['a'] := by
  obtain ⟨p, hp, hclean⟩ := exists_clean_parse {} "x = <></a>;".toList (by decide +kernel)
  obtain ⟨n, hn, htest⟩ := exists_descendant hp (fun n => n.kind == .xmlElement &&
    ((n.child? .openTag (.only .xmlStartTag)).any fun o => (o.inField .name).isEmpty) &&
    (n.child? .closeTag (.only .xmlEndTag)).any fun c =>
      (c.tokenIn? .name).any fun a => a.leaf.text == ['a']) (by decide +kernel)
  simp only [Bool.and_eq_true, Option.any_eq_true] at htest
  obtain ⟨⟨hkind, o, ho, hnone⟩, c, hc, a, ha, htext⟩ := htest
  exact ⟨p, hp, hclean, n, hn, o, c, a, eq_of_beq hkind, ho, List.isEmpty_iff.1 hnone, hc, ha,
    eq_of_beq htext⟩

end ActionScript
