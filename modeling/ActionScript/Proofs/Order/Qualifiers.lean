import ActionScript.Proofs.Order.Braces
import ActionScript.View.Family
import Mathlib.Data.List.Chain

/-!
# Namespaces in front of declarations

Any word counts as a namespace in front of a declaration if another one follows on its line, and so
do the words that are operators.  Behind a namespace in a tree come words, each on the line of the
one before it, up to the keyword of a declaration.

* `Tree.Node.Qualifies`: a word in front of a declaration.
* `qualifies_of_parseWithin`: **where namespaces stand**, and what a statement is that opens with an
  operator word.
-/

set_option autoImplicit false

namespace ActionScript

open Grammar

/-- The words that are operators in front of an operand, and `new`. -/
def operatorWords : List Text := ["delete", "typeof", "void", "new"].map String.toList

/-- The declarations that may have namespaces in front of them. -/
def Kind.qualified : List Kind :=
  [.functionDecl, .variableDecl, .constantDecl, .interfaceDecl, .namespaceDecl]

theorem Kind.mem_qualified {kind keyword : Kind} (h : kind.introducer? = some keyword)
    (hclass : keyword ≠ .classKw) : kind ∈ qualified := by
  have hkinds (k : Kind) (hk : k.introducer?.isSome = true) : k = .classDecl ∨ k ∈ qualified := by
    cases k <;> first | exact absurd hk (by decide) | decide
  rcases hkinds kind (by simp [h]) with rfl | hmem
  · exact absurd (Option.some.inj h).symm hclass
  · exact hmem

/-- A token that opens a statement or an annotation, or introduces a declaration. -/
def Kind.Opens (k : Kind) : Prop := ∃ kind : Kind, kind.opener? = some k ∨ kind.introducer? = some k

/-- Such a token is spelled otherwise than an operator word. -/
theorem Kind.Opens.exists_spelling {k : Kind} (h : k.Opens) :
    ∃ w, k.spelling = some w ∧ w.toList ∉ operatorWords := by
  obtain ⟨kind, h⟩ := h
  have hkinds : (kind.opener?.toList ++ kind.introducer?.toList).all
      (fun k => k.spelling.any fun w => !operatorWords.contains w.toList) = true := by
    cases kind <;> decide
  have hk := List.all_eq_true.1 hkinds k (by rcases h with h | h <;> simp [h])
  obtain ⟨w, hw, hnot⟩ := (Option.any_eq_true _ _).1 hk
  exact ⟨w, hw, by simpa using hnot⟩

namespace Tree

/-- On the line of a word something follows, unless the word is an attribute. -/
def Token.LeadsOn (t next : Token) : Prop :=
  isAttributeWord t.leaf.text = true ∨ next.startsLine = false

/-- The element is a modifier with one token. -/
def Element.IsModifier (e : Element) (t : Token) : Prop :=
  ∃ m, e = .node m ∧ m.field = some .modifier ∧ m.significantTokens = [t]

namespace Node

/-- A child stands among the modifiers of a declaration: from it on there are words, each of them on
the line of what follows unless it is an attribute, up to the keyword. -/
def Qualifies (n c : Node) : Prop :=
  ∃ keyword ∈ n.kind.introducer?, ∃ before words rest ts next more,
    n.elements = before ++ (.node c :: words) ++ rest ∧
    List.Forall₂ Element.IsModifier (.node c :: words) ts ∧
    rest.flatMap Element.significantTokens = next :: more ∧ next.kind = keyword ∧
    (ts ++ [next]).IsChain Token.LeadsOn

end Node

/-! ## Tokens of elements -/

theorem Token.IsOf.text_eq {t : Token} {kind : Kind} {field : Option Field} {leading : List Trivia}
    {text : Text} {trailing : List Trivia} (h : t.IsOf (.token kind field leading text trailing)) :
    t.leaf.text = text := by
  obtain ⟨offset, h⟩ := h
  exact h.2.2.2.1

namespace Element

variable {e : Element} {es : List Element} {s : Shape} {ss : List Shape}

theorem HasShape.isNode_eq {c : Node} (h : (Element.node c).HasShape s) (k : Kind) :
    s.isNode k = (c.kind == k) := by
  cases s with
  | token kind field leading text trailing =>
    rw [HasShape] at h
    obtain ⟨t, ht, -⟩ := h
    cases ht
  | node kind field kids =>
    rw [HasShape] at h
    obtain ⟨m, hm, hkind, -⟩ := h
    cases hm
    rw [hkind]
    rfl

theorem IsLaidFrom.hasShape (h : e.IsLaidFrom s) : e.HasShape s := by
  obtain ⟨n, slot, p, rfl, -⟩ := h
  exact n.hasShape_element slot p s

/-- The tokens of an element are shown for those of its shape. -/
theorem IsLaidFrom.isOf (h : e.IsLaidFrom s) :
    List.Forall₂ Token.IsOf e.significantTokens s.tokens := by
  obtain ⟨n, slot, p, rfl, hproper⟩ := h
  cases s with
  | token kind field leading text trailing =>
    rw [Shape.tokens_token]
    exact .cons ⟨_, (p.shows_cluster _ _ _ _ _).1⟩ .nil
  | node kind field kids =>
    have hshow := (n.show_tokensOf slot hproper).isOf
    rw [Progress.lay] at hshow ⊢
    rw [Node.tokensOf] at hshow
    exact hshow

theorem isOf_of_isLaidFrom (h : List.Forall₂ IsLaidFrom es ss) :
    List.Forall₂ Token.IsOf (es.flatMap significantTokens) (Shape.tokensAll ss) := by
  induction h with
  | nil =>
    rw [Shape.tokensAll_nil]
    exact .nil
  | cons hfirst _ ih =>
    rw [List.flatMap_cons, Shape.tokensAll_cons]
    exact List.rel_append hfirst.isOf ih

/-- The first token of some elements, told by the shapes. -/
theorem exists_first (h : List.Forall₂ IsLaidFrom es ss) {k : Kind} {line : Bool}
    {more : List (Kind × Bool)} (hstarts : Shape.starts ss = (k, line) :: more) :
    ∃ t ts, es.flatMap significantTokens = t :: ts ∧ t.kind = k ∧ t.startsLine = line := by
  have hof := isOf_of_isLaidFrom h
  obtain ⟨u, us, hus, hu, -⟩ := List.map_eq_cons_iff.1 hstarts
  rw [hus] at hof
  obtain ⟨t, ts, ht, -, hts⟩ := List.forall₂_cons_right_iff.1 hof
  rw [Prod.mk.injEq] at hu
  exact ⟨t, ts, hts, ht.kind_eq.trans hu.1, ht.startsLine_eq.trans hu.2⟩

/-- A word in front of a declaration. -/
theorem IsLaidFrom.exists_isModifier (h : e.IsLaidFrom s) {word : Text} (hs : s.IsModifier word) :
    ∃ t, e.IsModifier t ∧ t.leaf.text = word ∧ t.startsLine = s.startsLine := by
  obtain ⟨kind, k, leading, trailing, rfl, -⟩ := hs
  have hof := h.isOf
  have hshape := h.hasShape
  rw [HasShape] at hshape
  obtain ⟨m, rfl, -, hfield, -⟩ := hshape
  rw [Shape.tokens_node, Shape.tokensAll_cons, Shape.tokens_token, Shape.tokensAll_nil] at hof
  obtain ⟨t, ts, ht, hts, htokens⟩ := List.forall₂_cons_right_iff.1 hof
  obtain rfl := List.forall₂_nil_right_iff.1 hts
  exact ⟨t, ⟨m, rfl, hfield, htokens⟩, ht.text_eq,
    by simpa [Shape.startsLine] using ht.startsLine_eq⟩

/-- **Modifiers in a row** lead on to what follows. -/
theorem exists_modifiers {line : Bool} (h : List.Forall₂ IsLaidFrom es ss)
    (hss : Shape.LeadOn line ss) {next : Token} (hnext : next.startsLine = line) :
    ∃ ts, List.Forall₂ IsModifier es ts ∧ (ts ++ [next]).IsChain Token.LeadsOn ∧
      ∀ t ∈ (ts ++ [next]).head?, t.startsLine = Shape.lineBehind line ss := by
  induction h with
  | nil => exact ⟨[], .nil, by simp, by simpa [Shape.lineBehind] using hnext⟩
  | cons hfirst _ ih =>
    obtain ⟨⟨word, hword, hleads⟩, hss⟩ := hss
    obtain ⟨ts, hts, hchain, hhead⟩ := ih hss
    obtain ⟨t, ht, rfl, hline⟩ := hfirst.exists_isModifier hword
    refine ⟨t :: ts, .cons ht hts, ?_, ?_⟩
    · rw [List.cons_append, List.isChain_cons]
      exact ⟨fun u hu => hleads.imp_right fun h => (hhead u hu).trans h, hchain⟩
    · simpa [Shape.lineBehind] using hline

end Element

/-! ## Declarations -/

namespace Node

variable {n : Node} {kids : List Shape} {keyword : Kind}

/-- What a declaration is made of. -/
structure IsDeclared (n : Node) (keyword : Kind) (annotations words rest : List Element)
    (ts : List Token) (next : Token) : Prop where
  elements : n.elements = annotations ++ words ++ rest
  words : List.Forall₂ Element.IsModifier words ts
  keyword : next.kind = keyword
  rest : ∃ more, rest.flatMap Element.significantTokens = next :: more
  leads : (ts ++ [next]).IsChain Token.LeadsOn

/-- Each of the words in front of a declaration qualifies it. -/
theorem IsDeclared.qualifies {annotations words rest : List Element} {ts : List Token}
    {next : Token} (h : n.IsDeclared keyword annotations words rest ts next)
    (hkeyword : n.kind.introducer? = some keyword)
    {c : Node} (hc : .node c ∈ words) : n.Qualifies c := by
  obtain ⟨before, behind, rfl⟩ := List.append_of_mem hc
  obtain ⟨more, hmore⟩ := h.rest
  have hwords := List.forall₂_drop before.length h.words
  rw [List.drop_left] at hwords
  refine ⟨keyword, hkeyword, annotations ++ before, behind, rest, ts.drop before.length, next,
    more, ?_, hwords, hmore, h.keyword, ?_⟩
  · rw [h.elements]
    simp
  · have hleads := h.leads
    rw [← List.take_append_drop before.length ts, List.append_assoc] at hleads
    exact hleads.right_of_append

theorem exists_isDeclared (h : Shape.Declares keyword kids)
    (hlaid : List.Forall₂ Element.IsLaidFrom n.elements kids) :
    ∃ annotations words rest ts next, n.IsDeclared keyword annotations words rest ts next ∧
      ∃ as ws rs, kids = as ++ ws ++ rs ∧ List.Forall₂ Element.IsLaidFrom annotations as ∧
        List.Forall₂ Element.IsLaidFrom words ws ∧ List.Forall₂ Element.IsLaidFrom rest rs ∧
        (∀ c ∈ as, c.isNode .metadata = true) ∧
        (keyword = .classKw → ∀ c ∈ ws, c.isNode .propertyAttribute = false) ∧
        ∀ c ∈ rs, c.isNode .propertyAttribute = false := by
  obtain ⟨as, ws, rs, line, more, rfl, hstarts, hannotations, hwords, hclass, hrest⟩ := h
  have hfront := List.forall₂_take_append _ _ _ hlaid
  have hlast := List.forall₂_drop_append _ _ _ hlaid
  have hfirst := List.forall₂_take_append _ _ _ hfront
  have hsecond := List.forall₂_drop_append _ _ _ hfront
  obtain ⟨next, behind, htokens, hkeyword, hline⟩ := Element.exists_first hlast hstarts
  obtain ⟨ts, hts, hleads, -⟩ := Element.exists_modifiers hsecond hwords hline
  refine ⟨_, _, _, ts, next, ⟨?_, hts, hkeyword, ⟨behind, htokens⟩, hleads⟩, as, ws, rs, rfl,
    hfirst, hsecond, hlast, hannotations, hclass, hrest⟩
  rw [List.take_append_drop, List.take_append_drop]

/-- A namespace qualifies the declaration around it. -/
theorem qualifies_of_orderly {q : Prop} (horderly : Shape.Orderly q n.kind kids)
    (hlaid : List.Forall₂ Element.IsLaidFrom n.elements kids) {c : Node} (hc : c ∈ n.nodes)
    (hkind : c.kind = .propertyAttribute) : n.kind ∈ Kind.qualified ∧ n.Qualifies c := by
  obtain ⟨e, he, hnode⟩ := List.mem_filterMap.1 hc
  obtain rfl : e = .node c := by
    cases e with
    | node m => exact congrArg Element.node (Option.some.inj hnode)
    | token t => cases hnode
  have hshape {es : List Element} {ss : List Shape} (h : List.Forall₂ Element.IsLaidFrom es ss)
      (hmem : .node c ∈ es) : ∃ s ∈ ss, ∀ k, s.isNode k = (c.kind == k) := by
    obtain ⟨s, hs, hlaid⟩ := exists_rel_of_mem (R := fun s e => Element.IsLaidFrom e s) h.flip hmem
    exact ⟨s, hs, hlaid.hasShape.isNode_eq⟩
  cases hkeyword : n.kind.introducer? with
  | none =>
    obtain ⟨s, hs, hnode⟩ := hshape hlaid he
    have hno := horderly.qualifier hkeyword s hs
    rw [hnode, hkind] at hno
    cases hno
  | some keyword =>
    obtain ⟨annotations, words, rest, ts, next, hdeclared, as, ws, rs, -, has, hws, hrs,
      hannotations, hclass, hrest⟩ := exists_isDeclared (horderly.declares keyword hkeyword) hlaid
    rw [hdeclared.elements, List.mem_append, List.mem_append] at he
    rcases he with (he | he) | he
    · obtain ⟨s, hs, hnode⟩ := hshape has he
      have hmetadata := hannotations s hs
      rw [hnode, hkind] at hmetadata
      cases hmetadata
    · refine ⟨Kind.mem_qualified hkeyword fun hclassKw => ?_, hdeclared.qualifies hkeyword he⟩
      obtain ⟨s, hs, hnode⟩ := hshape hws he
      have hno := hclass hclassKw s hs
      rw [hnode, hkind] at hno
      cases hno
    · obtain ⟨s, hs, hnode⟩ := hshape hrs he
      have hno := hrest s hs
      rw [hnode, hkind] at hno
      cases hno

/-- The first token of a node that opens with a token of its own, or of a declaration: that token or
the keyword, or a word in front of it. -/
theorem exists_first_of_orderly {q : Prop} {field : Option Field}
    (hevery : (Shape.node n.kind field kids).Every (Shape.Orderly q))
    (hlaid : List.Forall₂ Element.IsLaidFrom n.elements kids)
    (hkind : n.kind.opener?.isSome = true ∨ n.kind.introducer?.isSome = true) :
    ∃ t ts, n.elements.flatMap Element.significantTokens = t :: ts ∧
      (t.kind.Opens ∨ ∃ c ∈ n.nodes, n.Qualifies c ∧ c.significantTokens = [t]) := by
  rw [Shape.every_node] at hevery
  obtain ⟨horderly, hbelow⟩ := hevery
  have hfirst {k : Kind} (hk : k.Opens) {line : Bool} {more : List (Kind × Bool)}
      (hstarts : Shape.starts kids = (k, line) :: more) :
      ∃ t ts, n.elements.flatMap Element.significantTokens = t :: ts ∧
        (t.kind.Opens ∨ ∃ c ∈ n.nodes, n.Qualifies c ∧ c.significantTokens = [t]) := by
    obtain ⟨t, ts, htokens, rfl, -⟩ := Element.exists_first hlaid hstarts
    exact ⟨t, ts, htokens, .inl hk⟩
  rcases hkind with hopener | hintroducer
  · obtain ⟨k, hk⟩ := Option.isSome_iff_exists.1 hopener
    obtain ⟨line, more, hstarts⟩ := horderly.opening k hk
    exact hfirst ⟨n.kind, .inl hk⟩ hstarts
  · obtain ⟨keyword, hkeyword⟩ := Option.isSome_iff_exists.1 hintroducer
    obtain ⟨annotations, words, rest, ts, next, hdeclared, as, ws, rs, rfl, has, hws, hrs,
      hannotations, -⟩ :=
      exists_isDeclared (horderly.declares keyword hkeyword) hlaid
    cases as with
    | cons a as =>
      cases a with
      | token kind field leading text trailing => cases hannotations _ List.mem_cons_self
      | node kind field inner =>
        obtain rfl : kind = .metadata := eq_of_beq (hannotations _ List.mem_cons_self)
        obtain ⟨line, more, hstarts⟩ :=
          (Shape.every_node.1 (hbelow (.node .metadata field inner) (by simp))).1.opening .lBrack
            rfl
        have hall : Shape.starts (.node .metadata field inner :: as ++ ws ++ rs) =
            (.lBrack, line) :: (more ++ Shape.starts (as ++ ws ++ rs)) := by
          rw [List.cons_append, List.cons_append, ← List.singleton_append, Shape.starts_append,
            Shape.starts_node, hstarts, List.cons_append]
        exact hfirst ⟨.metadata, .inl rfl⟩ hall
    | nil =>
      obtain rfl := List.forall₂_nil_right_iff.1 has
      have helements := hdeclared.elements
      rw [List.nil_append] at helements
      obtain ⟨more, hmore⟩ := hdeclared.rest
      cases hdeclared.words with
      | nil =>
        refine ⟨next, more, ?_, .inl ⟨n.kind, .inr (hdeclared.keyword ▸ hkeyword)⟩⟩
        rw [helements, List.nil_append, hmore]
      | cons hword hwords =>
        obtain ⟨c, rfl, -, htoken⟩ := hword
        have hmem : c ∈ n.nodes := by
          rw [nodes, helements]
          exact List.mem_filterMap.2 ⟨.node c, by simp, rfl⟩
        rename_i t es ts
        refine ⟨t, (es ++ rest).flatMap Element.significantTokens, ?_,
          .inr ⟨c, hmem, hdeclared.qualifies hkeyword List.mem_cons_self, htoken⟩⟩
        rw [helements, List.cons_append, List.flatMap_cons, Element.significantTokens, htoken,
          List.singleton_append]

end Node

end Tree

/-- **Where namespaces stand.**  A namespace is one of the words in front of a function, a variable,
a constant, an interface or a namespace: behind it, on its line unless it is an attribute, comes
another such word or the keyword.  A statement that opens with an operator word is an expression or
has a label, unless it is a declaration with that word in front of it. -/
theorem qualifies_of_parseWithin [Alphabet] {limits : Limits} {text : Text} {p : Parse}
    (h : parseWithin limits text = .ok p) :
    ∀ n ∈ p.tree.root.descendants,
      (∀ c ∈ n.nodes, c.kind = .propertyAttribute → n.kind ∈ Kind.qualified ∧ n.Qualifies c) ∧
      (Family.statement.admits n.kind = true →
        ∀ t ∈ n.significantTokens.head?, t.leaf.text ∈ operatorWords →
          n.kind = .exprStmt ∨ n.kind = .labeledStmt ∨
            ∃ c ∈ n.nodes, n.Qualifies c ∧ c.significantTokens = [t]) := by
  intro n hn
  obtain ⟨before, behind, q, kids, htokens, -, -, hchildren, -, -, hproper, hevery⟩ :=
    liesIn_of_every h (State.orderly_run (aborted_of_parseWithin h)) n hn
  have hlaid := Tree.Node.forall₂_isLaidFrom hchildren hproper
  refine ⟨fun c hc hkind => Tree.Node.qualifies_of_orderly (Shape.every_node.1 hevery).1
    hlaid hc hkind, fun hstatement t ht hword => ?_⟩
  have hkinds : n.kind = .exprStmt ∨ n.kind = .labeledStmt ∨
      (n.kind.opener?.isSome = true ∨ n.kind.introducer?.isSome = true) := by
    cases hkind :
      n.kind <;> rw [hkind] at hstatement <;> first | exact absurd hstatement (by decide) | decide
  refine hkinds.imp_right fun hkinds => hkinds.imp_right fun hkinds => ?_
  obtain ⟨u, us, hfirst, hcases⟩ := Tree.Node.exists_first_of_orderly hevery hlaid hkinds
  rw [Tree.Node.significantTokens_eq_flatMap hproper, hfirst, List.head?_cons,
    Option.mem_some_iff] at ht
  subst ht
  rcases hcases with hopens | hqualifies
  · obtain ⟨w, hspelling, hno⟩ := hopens.exists_spelling
    have hmem : u ∈ p.tree.tokens := by
      have hmem : u ∈ n.significantTokens := by
        rw [Tree.Node.significantTokens_eq_flatMap hproper, hfirst]
        exact List.mem_cons_self
      rw [Tree.tokens, htokens]
      simp [List.mem_of_mem_filter hmem]
    rw [(significantTokens_refine h).2 u hmem w hspelling] at hword
    exact absurd hword hno
  · exact hqualifies

/-- A variable with a namespace, and operators. -/
theorem qualifies_of_parseWithin_namespace :
    ∃ p, parseWithin {} "ns var x;\ndelete y;".toList = .ok p ∧
    ∀ n ∈ p.tree.root.descendants,
      (∀ c ∈ n.nodes, c.kind = .propertyAttribute → n.kind ∈ Kind.qualified ∧ n.Qualifies c) ∧
      (Family.statement.admits n.kind = true →
        ∀ t ∈ n.significantTokens.head?, t.leaf.text ∈ operatorWords →
          n.kind = .exprStmt ∨ n.kind = .labeledStmt ∨
            ∃ c ∈ n.nodes, n.Qualifies c ∧ c.significantTokens = [t]) := by
  obtain ⟨p, hp, -⟩ :=
    exists_parseWithin (Limits.endless_maxDepth 256) "ns var x;\ndelete y;".toList
  exact ⟨p, hp, qualifies_of_parseWithin hp⟩

/-- An operator word stands as a namespace in front of a function, and the call of that function is
reported, which is no fault of the text. -/
theorem operator_in_front_of_function :
    ∃ p, parseWithin {} "void function f() {}();".toList = .ok p ∧
    p.diagnostics = [⟨.syntactic .expectedExpression, ⟨21, 22⟩⟩] ∧
    ∃ n ∈ p.tree.root.descendants, n.kind = .functionDecl ∧
      ∃ c ∈ n.nodes, c.kind = .propertyAttribute ∧
        c.significantTokens.map (fun t => t.leaf.text) = ["void".toList] := by
  obtain ⟨p, hp, hreports⟩ :=
    exists_parseWithin (Limits.endless_maxDepth 256) "void function f() {}();".toList
  obtain ⟨n, hn, htest⟩ := exists_descendant hp (fun n => n.kind == .functionDecl &&
    n.nodes.any fun c => c.kind == .propertyAttribute &&
      c.significantTokens.map (fun t => t.leaf.text) == ["void".toList]) (by decide +kernel)
  simp only [Bool.and_eq_true, List.any_eq_true, beq_iff_eq] at htest
  have hdiagnostics : (State.run {} "void function f() {}();".toList).reports.reverse =
      [⟨.syntactic .expectedExpression, ⟨21, 22⟩⟩] := by decide +kernel
  exact ⟨p, hp, hreports.trans hdiagnostics, n, hn, htest⟩

end ActionScript
