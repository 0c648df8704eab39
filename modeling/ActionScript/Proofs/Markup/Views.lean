import Mathlib.Data.List.Forall2
import ActionScript.Proofs.Markup.RoundTrip
import ActionScript.View.Schema

/-!
# What a tree says of an element

A tree that is laid out from a shape has that shape, and what its nodes answer can be read off from
it.  So the nodes of a parsed element answer what was printed: its name, its attributes, its
content.

* `Tree.Element.HasShape`: an element of a tree has a shape; positions and trivia are left aside.
* `Xml.Shows`: what a node answers is what an element holds, all the way down.
* `Xml.Shows.unique`: **a node shows at most one element**, so nothing of it is lost.
* `Xml.parseWithin_shows`: **the round trip** up to the answers.
-/

set_option autoImplicit false

namespace ActionScript

/-! ## Trees and shapes -/

/-- The slot that a shape fills. -/
def Shape.slot? : Shape → Option Field
  | .token _ field _ _ _ => field
  | .node _ field _ => field

namespace Shape

variable {kind : Kind} {field : Option Field} {lead tail : List Trivia} {text : Text}

@[simp] theorem slot?_token : (token kind field lead text tail).slot? = field := rfl

@[simp] theorem slot?_node (children : List Shape) : (node kind field children).slot? = field := rfl

@[simp] theorem slot?_sign : (sign kind field tail).slot? = field := rfl

@[simp] theorem slot?_withField (f : Field) (s : Shape) : (s.withField f).slot? = some f := by
  cases s <;> rfl

end Shape

/-- Is a shape a token of a kind? -/
def Shape.isToken (k : Kind) : Shape → Bool
  | .token kind .. => kind == k
  | .node .. => false

namespace Tree.Element

mutual

/-- An element of a tree has a shape. -/
def HasShape (e : Element) : Shape → Prop
  | .token kind field _ text _ =>
    ∃ t, e = .token t ∧ t.kind = kind ∧ t.field = field ∧ t.leaf.text = text
  | .node kind field children =>
    ∃ n, e = .node n ∧ n.kind = kind ∧ n.field = field ∧ HaveShapes n.elements children

/-- Elements in a row have the shapes in a row. -/
def HaveShapes (es : List Element) : List Shape → Prop
  | [] => es = []
  | s :: ss => ∃ e es', es = e :: es' ∧ e.HasShape s ∧ HaveShapes es' ss

end

theorem haveShapes_iff {es : List Element} {ss : List Shape} :
    HaveShapes es ss ↔ List.Forall₂ HasShape es ss := by
  induction ss generalizing es with
  | nil => rw [HaveShapes, List.forall₂_nil_right_iff]
  | cons s ss ih =>
    rw [HaveShapes, List.forall₂_cons_right_iff]
    constructor
    · rintro ⟨e, es', rfl, he, hes⟩
      exact ⟨e, es', he, ih.1 hes, rfl⟩
    · rintro ⟨e, es', he, hes, rfl⟩
      exact ⟨e, es', rfl, he, ih.2 hes⟩

theorem HasShape.field_eq {e : Element} {s : Shape} (h : e.HasShape s) : e.field = s.slot? := by
  cases s with
  | token kind field leading text trailing =>
    rw [HasShape] at h
    obtain ⟨t, rfl, -, hfield, -⟩ := h
    exact hfield
  | node kind field children =>
    rw [HasShape] at h
    obtain ⟨n, rfl, -, hfield, -⟩ := h
    exact hfield

end Tree.Element

namespace Tree.Node

open Element

mutual

/-- **Laid out, a shape is the shape of the element that it makes.** -/
theorem hasShape_element (n : Node) (slot : Nat) (p : Progress) (s : Shape) :
    (n.element slot (p.lay s).1).HasShape s := by
  cases s with
  | token kind field leading text trailing =>
    rw [HasShape]
    exact ⟨_, rfl, rfl, rfl, rfl⟩
  | node kind field children =>
    rw [HasShape]
    exact ⟨_, rfl, rfl, rfl, haveShapes_layAll _ id _ children⟩

theorem haveShapes_layAll (n : Node) (slots : Nat → Nat) (p : Progress) (ss : List Shape) :
    HaveShapes ((p.layAll ss).1.mapIdx fun i => n.element (slots i)) ss := by
  cases ss with
  | nil =>
    rw [HaveShapes]
    rfl
  | cons s ss =>
    rw [HaveShapes, Progress.layAll, List.mapIdx_cons]
    exact ⟨_, _, rfl, hasShape_element n _ p s, haveShapes_layAll n (fun i => slots (i + 1)) _ ss⟩

end

/-- A node has the kind of a shape, and its children the shapes of the children. -/
structure IsMadeOf (n : Node) (kind : Kind) (ss : List Shape) : Prop where
  kind_eq : n.kind = kind
  elements : List.Forall₂ HasShape n.elements ss

theorem exists_isMadeOf {e : Element} {kind : Kind} {field : Option Field} {ss : List Shape}
    (h : e.HasShape (.node kind field ss)) : ∃ n, e = .node n ∧ n.IsMadeOf kind ss := by
  rw [HasShape] at h
  obtain ⟨n, rfl, hkind, -, helements⟩ := h
  exact ⟨n, rfl, hkind, haveShapes_iff.1 helements⟩

section
variable {n : Node} {kind : Kind} {ss : List Shape} (h : n.IsMadeOf kind ss)
include h

/-- What fills a slot has the shapes that fill it. -/
theorem IsMadeOf.inField (f : Field) :
    List.Forall₂ HasShape (n.inField f) (ss.filter fun s => s.slot? == some f) :=
  List.rel_filter (fun e s hshape => by simp [hshape.field_eq]) h.elements

/-- The first node in a slot that plays the role is found. -/
theorem IsMadeOf.exists_child? {f : Field} (role : Role) {kind' : Kind} {field : Option Field}
    {kids others : List Shape}
    (hslot : ss.filter (fun s => s.slot? == some f) = .node kind' field kids :: others)
    (hrole : role.admits kind' = true) : ∃ m, n.child? f role = some m ∧ m.IsMadeOf kind' kids := by
  have hin := h.inField f
  rw [hslot] at hin
  obtain ⟨e, es, he, -, hes⟩ := List.forall₂_cons_right_iff.1 hin
  obtain ⟨m, rfl, hm⟩ := exists_isMadeOf he
  refine ⟨m, ?_, hm⟩
  simp [child?, nodeIn?, hes, List.findSome?_cons, Element.node?, hm.kind_eq, hrole]

/-- The first token in a slot is found. -/
theorem IsMadeOf.exists_token {f : Field} {kind' : Kind} {field : Option Field} {text : Text}
    {lead tail : List Trivia} {others : List Shape}
    (hslot : ss.filter (fun s => s.slot? == some f) = .token kind' field lead text tail :: others) :
    ∃ t, n.tokenIn? f = some t ∧ n.field? f = some (.token t) ∧ t.kind = kind' ∧
      t.leaf.text = text := by
  have hin := h.inField f
  rw [hslot] at hin
  obtain ⟨e, es, he, -, hes⟩ := List.forall₂_cons_right_iff.1 hin
  rw [HasShape] at he
  obtain ⟨t, rfl, hkind, -, htext⟩ := he
  refine ⟨t, ?_, ?_, hkind, htext⟩
  · simp [tokenIn?, hes, List.findSome?_cons, Element.token?]
  · simp [field?, hes]

theorem IsMadeOf.tokenIn?_eq_none {f : Field}
    (hslot : ss.filter (fun s => s.slot? == some f) = []) : n.tokenIn? f = none := by
  have hin := h.inField f
  rw [hslot, List.forall₂_nil_right_iff] at hin
  simp [tokenIn?, hin]

/-- The nodes in a slot are found, each made of what it was made for. -/
theorem IsMadeOf.childrenIn {α : Type} {f : Field} (role : Role) {kind' : Kind} {xs : List α}
    {kids : α → List Shape}
    (hslot : ss.filter (fun s => s.slot? == some f) = xs.map fun x => .node kind' (some f) (kids x))
    (hrole : role.admits kind' = true) :
    List.Forall₂ (fun m x => m.IsMadeOf kind' (kids x)) (n.childrenIn f role) xs := by
  have hin := h.inField f
  rw [hslot, List.forall₂_map_right_iff] at hin
  rw [Node.childrenIn]
  generalize n.inField f = es at hin
  clear hslot h
  induction hin with
  | nil => exact .nil
  | cons he _ ih =>
    obtain ⟨m, rfl, hm⟩ := exists_isMadeOf he
    have hadmits : role.admits m.kind = true := by rw [hm.kind_eq, hrole]
    simpa [List.filterMap_cons, Element.node?, List.filter_cons, hadmits] using And.intro hm ih

/-- A token of a kind is found if there is one among the shapes. -/
theorem IsMadeOf.isSome_tokenOfKind? (k : Kind) :
    (n.tokenOfKind? k).isSome = ss.any (Shape.isToken k) := by
  obtain ⟨-, helements⟩ := h
  rw [tokenOfKind?]
  generalize n.elements = es at helements
  induction helements with
  | nil => rfl
  | @cons e s es ss he _ ih =>
    rw [List.any_cons, ← ih]
    cases s with
    | token kind' field leading text trailing =>
      rw [HasShape] at he
      obtain ⟨t, rfl, rfl, -⟩ := he
      cases hk : t.kind == k <;> simp [Element.token?, Shape.isToken, hk]
    | node kind' field children =>
      obtain ⟨m, rfl, -⟩ := exists_isMadeOf he
      simp [Element.token?, Shape.isToken]

end

/-- What a node answers to a question by its name. -/
def answer? (tree : Tree) (n : Node) (name : String) : Option Answer :=
  (View.of? n.kind).bind fun view => (view.lookup name).map fun q => q.ask tree n

/-- What a node is asked depends on its kind only. -/
theorem answer?_eq {tree : Tree} {n : Node} {kind : Kind} (hkind : n.kind = kind) {name : String}
    {q : Question} (hq : (View.of? kind).bind (List.lookup name) = some q) :
    n.answer? tree name = some (q.ask tree n) := by
  obtain ⟨view, hview, hlookup⟩ := Option.bind_eq_some_iff.1 hq
  simp [answer?, hkind, hview, hlookup]

end Tree.Node

namespace Xml

open ActionScript.Tree

/-! ## What the nodes of an element answer -/

/-- An element of a tree is a token with a kind and a text. -/
def ShowsToken (e : Element) (kind : Kind) (text : Text) : Prop :=
  ∃ t, e = .token t ∧ t.kind = kind ∧ t.leaf.text = text

section

variable [Alphabet]

/-- A node answers with the name and the quoted value of an attribute. -/
structure ShowsAttribute (tree : Tree) (n : Node) (a : XmlAttribute) : Prop where
  kind : n.kind = .xmlAttribute
  name : ∃ t, n.answer? tree "name" = some (.token (some t)) ∧ t.leaf.text = a.name.text
  value : ∃ e, n.answer? tree "value" = some (.element (some e)) ∧ ShowsToken e .string a.quoted

/-- A node answers with the name of a tag, if that has one, and with nodes for the attributes. -/
structure ShowsTag (tree : Tree) (n : Node) (t : XmlTag) : Prop where
  kind : n.kind = .xmlStartTag
  name : ∃ found, n.answer? tree "name" = some (.token found) ∧
    found.map (fun t => t.leaf.text) = t.name?.map TagName.text
  attributes : ∃ ms, n.answer? tree "attributes" = some (.nodes ms) ∧
    List.Forall₂ (ShowsAttribute tree) ms t.attributes

/-- A node answers with the start tag of an element, and says whether that is the whole of it. -/
structure ShowsHead (tree : Tree) (n : Node) (e : Xml) : Prop where
  kind : n.kind = .xmlElement
  openTag : ∃ m, n.answer? tree "open_tag" = some (.node (some m)) ∧ ShowsTag tree m e.tag
  closing : n.answer? tree "is_self_closing" = some (.flag e.isClosed)

mutual

/-- **A node shows an element**: what it answers is what the element holds. -/
def Shows (tree : Tree) (n : Node) : Xml → Prop
  | closed name attributes => ShowsHead tree n (closed name attributes) ∧
    n.answer? tree "content" = some (.elements [])
  | paired tag content => ShowsHead tree n (paired tag content) ∧
    ∃ es, n.answer? tree "content" = some (.elements es) ∧ ShowAll tree es content

/-- Elements of a tree show the items of content, one by one. -/
def ShowAll (tree : Tree) (es : List Element) : List XmlItem → Prop
  | [] => es = []
  | i :: is => ∃ e es', es = e :: es' ∧ ShowsItem tree e i ∧ ShowAll tree es' is

/-- An element of a tree shows an item: a node shows an element, and a token has the kind and the
text of any other item. -/
def ShowsItem (tree : Tree) (e : Element) : XmlItem → Prop
  | .element x => ∃ n, e = .node n ∧ Shows tree n x
  | .text t => ShowsToken e .xmlText t.text
  | .enclosed m => ShowsToken e m.enclosure.kind m.text

end

variable {tree : Tree} {n : Node}

/-! ## From shapes to answers -/

theorem showsAttribute {a : XmlAttribute} (h : n.IsMadeOf .xmlAttribute
    [.token .name (some .name) Trivia.gap a.name.text [], .sign .eq none [],
      .token .string (some .value) [] a.quoted []]) : ShowsAttribute tree n a where
  kind := h.kind_eq
  name := by
    obtain ⟨t, ht, -, -, htext⟩ := h.exists_token (f := .name) rfl
    refine ⟨t, ?_, htext⟩
    rw [Node.answer?_eq h.kind_eq (q := .token .name) rfl, Question.ask, ht]
  value := by
    obtain ⟨t, -, ht, hkind, htext⟩ := h.exists_token (f := .value) rfl
    refine ⟨.token t, ?_, t, rfl, hkind, htext⟩
    rw [Node.answer?_eq h.kind_eq (q := .element .value) rfl, Question.ask, ht]

/-- What a start tag is made of. -/
def tagShapes (t : XmlTag) (ending : Kind) : List Shape :=
  .sign .lt none [] :: shapesOfName t ++ t.attributes.map shapeOfAttribute ++ [.sign ending none []]

/-- Attributes fill their slot, and no other. -/
theorem slot?_of_mem_attributes {as : List XmlAttribute} {s : Shape}
    (hs : s ∈ as.map shapeOfAttribute) : s.slot? = some .attribute := by
  obtain ⟨a, -, rfl⟩ := List.mem_map.1 hs
  rfl

theorem filter_tagShapes_name (t : XmlTag) (ending : Kind) :
    (tagShapes t ending).filter (fun s => s.slot? == some .name) = shapesOfName t := by
  have hattributes :
      (t.attributes.map shapeOfAttribute).filter (fun s => s.slot? == some .name) = [] :=
    List.filter_eq_nil_iff.2 fun s hs => by simp [slot?_of_mem_attributes hs]
  cases t <;> simp [tagShapes, List.filter_append, hattributes, shapesOfName, XmlTag.name?]

theorem filter_tagShapes_attribute (t : XmlTag) (ending : Kind) :
    (tagShapes t ending).filter (fun s => s.slot? == some .attribute) =
      t.attributes.map shapeOfAttribute := by
  have hattributes : (t.attributes.map shapeOfAttribute).filter
      (fun s => s.slot? == some .attribute) = t.attributes.map shapeOfAttribute :=
    List.filter_eq_self.2 fun s hs => by simp [slot?_of_mem_attributes hs]
  cases t <;> simp [tagShapes, List.filter_append, hattributes, shapesOfName, XmlTag.name?]

theorem showsTag {t : XmlTag} {ending : Kind} (h : n.IsMadeOf .xmlStartTag (tagShapes t ending)) :
    ShowsTag tree n t where
  kind := h.kind_eq
  name := by
    rw [Node.answer?_eq h.kind_eq (q := .token .name) rfl, Question.ask]
    refine ⟨_, rfl, ?_⟩
    have hslot := filter_tagShapes_name t ending
    cases t with
    | named name attributes =>
      obtain ⟨t, ht, -, -, htext⟩ := h.exists_token hslot
      rw [ht, Option.map_some, htext]
      rfl
    | ofList =>
      rw [h.tokenIn?_eq_none hslot]
      rfl
  attributes := by
    have hattributes := h.childrenIn (.only .xmlAttribute) (filter_tagShapes_attribute t ending)
      (by decide)
    rw [Node.answer?_eq h.kind_eq (q := .nodes .attribute (.only .xmlAttribute)) rfl, Question.ask]
    exact ⟨_, rfl, hattributes.imp fun m a hm => showsAttribute hm⟩

/-- A start tag is closed exactly if it ends so. -/
theorem any_tagShapes (t : XmlTag) (ending : Kind) :
    (tagShapes t ending).any (Shape.isToken .slashGt) = (ending == .slashGt) := by
  have hattributes : (t.attributes.map shapeOfAttribute).any (Shape.isToken .slashGt) = false := by
    rw [List.any_eq_false]
    intro s hs
    obtain ⟨a, -, rfl⟩ := List.mem_map.1 hs
    exact Bool.false_ne_true
  have hlt : Shape.isToken .slashGt (.sign .lt none []) = false := rfl
  have hname : (shapesOfName t).any (Shape.isToken .slashGt) = false := by cases t <;> rfl
  have hending : Shape.isToken .slashGt (.sign ending none []) = (ending == .slashGt) := rfl
  simp only [tagShapes, List.any_append, List.any_cons, List.any_nil, hlt, hname,
    hattributes, hending, Bool.false_or, Bool.or_false]

/-- An element is made of its start tag first. -/
theorem showsHead {e : Xml} {ending : Kind} {others : List Shape}
    (h : n.IsMadeOf .xmlElement (startTag e.tag ending :: others))
    (hclosed : (ending == .slashGt) = e.isClosed) : ShowsHead tree n e := by
  obtain ⟨m, hm, hmade⟩ := h.exists_child? (f := .openTag) (.only .xmlStartTag)
    (List.filter_cons_of_pos rfl) rfl
  refine ⟨h.kind_eq, ⟨m, ?_, showsTag hmade⟩, ?_⟩
  · rw [Node.answer?_eq h.kind_eq (q := .node .openTag (.only .xmlStartTag)) rfl, Question.ask, hm]
  · rw [Node.answer?_eq h.kind_eq (q := .selfClosing) rfl, Question.ask, Node.isSelfClosing, hm,
      ← hclosed, ← any_tagShapes e.tag ending]
    exact congrArg (fun b => some (Answer.flag b)) (hmade.isSome_tokenOfKind? .slashGt)

/-- All content is in its slot. -/
theorem slot?_of_mem_shapesAll {is : List XmlItem} {s : Shape} (hs : s ∈ shapesAll is) :
    s.slot? = some .content := by
  induction is with
  | nil => cases hs
  | cons i is ih =>
    rw [shapesAll, List.mem_cons] at hs
    rcases hs with rfl | hs
    · cases i <;> simp [shapeOfItem]
    · exact ih hs

theorem filter_content (tag : XmlTag) (is : List XmlItem) :
    (startTag tag .gt :: shapesAll is ++ [endTag tag]).filter (fun s => s.slot? == some .content) =
      shapesAll is := by
  have hall : (shapesAll is).filter (fun s => s.slot? == some .content) = shapesAll is :=
    List.filter_eq_self.2 fun s hs => by simp [slot?_of_mem_shapesAll hs]
  simp [startTag, endTag, List.filter_append, hall]

/-- What an element is made of. -/
def kids : Xml → List Shape
  | closed name attributes => [startTag (.named name attributes) .slashGt]
  | paired tag content => startTag tag .gt :: shapesAll content ++ [endTag tag]

theorem shape_eq (e : Xml) : e.shape = .node .xmlElement none e.kids := by
  cases e with
  | closed name attributes => rw [shape, kids]
  | paired tag content => rw [shape, kids]

mutual

/-- **A node that is made of an element shows it.** -/
theorem shows_of_isMadeOf (e : Xml) {n : Node} (h : n.IsMadeOf .xmlElement e.kids) :
    Shows tree n e := by
  have hanswer : n.answer? tree "content" = some (.elements (n.inField .content)) :=
    Node.answer?_eq h.kind_eq (q := .elements .content) rfl
  have hin := h.inField .content
  cases e with
  | closed name attributes =>
    have hnone : n.inField .content = [] := List.forall₂_nil_right_iff.1 hin
    rw [Shows, hanswer, hnone]
    exact ⟨showsHead h rfl, rfl⟩
  | paired tag content =>
    rw [kids, filter_content] at hin
    rw [Shows]
    exact ⟨showsHead h rfl, _, hanswer, showAll_of_hasShape content hin⟩

theorem showAll_of_hasShape (is : List XmlItem) {es : List Element}
    (h : List.Forall₂ Element.HasShape es (shapesAll is)) : ShowAll tree es is := by
  match is with
  | [] =>
    rw [ShowAll]
    exact List.forall₂_nil_right_iff.1 h
  | i :: is =>
    rw [shapesAll] at h
    obtain ⟨e, es', he, hes, rfl⟩ := List.forall₂_cons_right_iff.1 h
    rw [ShowAll]
    exact ⟨e, es', rfl, showsItem_of_hasShape i he, showAll_of_hasShape is hes⟩

theorem showsItem_of_hasShape (i : XmlItem) {e : Element} (h : e.HasShape (shapeOfItem i)) :
    ShowsItem tree e i := by
  cases i with
  | element x =>
    rw [shapeOfItem, shape_eq] at h
    obtain ⟨n, rfl, hmade⟩ := Node.exists_isMadeOf h
    rw [ShowsItem]
    exact ⟨n, rfl, shows_of_isMadeOf x hmade⟩
  | text t =>
    rw [shapeOfItem, Element.HasShape] at h
    obtain ⟨token, rfl, hkind, -, htext⟩ := h
    rw [ShowsItem]
    exact ⟨token, rfl, hkind, htext⟩
  | enclosed m =>
    rw [shapeOfItem, Element.HasShape] at h
    obtain ⟨token, rfl, hkind, -, htext⟩ := h
    rw [ShowsItem]
    exact ⟨token, rfl, hkind, htext⟩

end

/-! ## Nothing is lost -/

omit [Alphabet] in
theorem ShowsToken.unique {e : Element} {kind kind' : Kind} {text text' : Text}
    (h : ShowsToken e kind text) (h' : ShowsToken e kind' text') : kind = kind' ∧ text = text' := by
  obtain ⟨t, rfl, hkind, htext⟩ := h
  obtain ⟨t', heq, hkind', htext'⟩ := h'
  cases heq
  exact ⟨hkind.symm.trans hkind', htext.symm.trans htext'⟩

omit [Alphabet] in
theorem ShowsToken.ne_node {n : Node} {kind : Kind} {text : Text} :
    ¬ShowsToken (.node n) kind text := by
  rintro ⟨t, heq, -⟩
  cases heq

theorem ShowsAttribute.unique {a b : XmlAttribute} (ha : ShowsAttribute tree n a)
    (hb : ShowsAttribute tree n b) : a = b := by
  obtain ⟨s, hs, hsname⟩ := ha.name
  obtain ⟨t, ht, htname⟩ := hb.name
  obtain ⟨u, hu, huvalue⟩ := ha.value
  obtain ⟨v, hv, hvvalue⟩ := hb.value
  rw [hs] at ht
  cases ht
  rw [hu] at hv
  cases hv
  exact XmlAttribute.eq_of_quoted (TagName.eq_of_text (hsname.symm.trans htname))
    (huvalue.unique hvvalue).2

theorem ShowsTag.unique {s t : XmlTag} (hs : ShowsTag tree n s)
    (ht : ShowsTag tree n t) : s = t := by
  obtain ⟨found, hfound, hsname⟩ := hs.name
  obtain ⟨found', hfound', htname⟩ := ht.name
  obtain ⟨ms, hms, hsattributes⟩ := hs.attributes
  obtain ⟨ms', hms', htattributes⟩ := ht.attributes
  rw [hfound] at hfound'
  cases hfound'
  rw [hms] at hms'
  cases hms'
  have hname : s.name?.map TagName.text = t.name?.map TagName.text := hsname.symm.trans htname
  have hattributes : s.attributes = t.attributes :=
    List.right_unique_forall₂' (fun _ _ _ ha hb => ha.unique hb) hsattributes htattributes
  cases s <;> cases t
  case named.named name attributes name' attributes' =>
    obtain rfl : attributes = attributes' := hattributes
    rw [TagName.eq_of_text (Option.some.inj hname)]
  case named.ofList => cases hname
  case ofList.named => cases hname
  case ofList.ofList => rfl

theorem ShowsHead.unique {e f : Xml} (he : ShowsHead tree n e) (hf : ShowsHead tree n f) :
    e.tag = f.tag ∧ e.isClosed = f.isClosed := by
  obtain ⟨m, hm, hetag⟩ := he.openTag
  obtain ⟨m', hm', hftag⟩ := hf.openTag
  rw [hm] at hm'
  cases hm'
  have hclosing := he.closing.symm.trans hf.closing
  simp only [Option.some.injEq, Answer.flag.injEq] at hclosing
  exact ⟨hetag.unique hftag, hclosing⟩

theorem Shows.head {e : Xml} (h : Shows tree n e) : ShowsHead tree n e := by
  cases e with
  | closed name attributes =>
    rw [Shows] at h
    exact h.1
  | paired tag content =>
    rw [Shows] at h
    exact h.1

mutual

/-- **A node shows at most one element.** -/
theorem Shows.unique (e : Xml) {f : Xml} {n : Node} (he : Shows tree n e) (hf : Shows tree n f) :
    e = f := by
  obtain ⟨htag, hclosed⟩ := he.head.unique hf.head
  cases e <;> cases f
  case closed.closed =>
    cases htag
    rfl
  case closed.paired => cases hclosed
  case paired.closed => cases hclosed
  case paired.paired tag content tag' content' =>
    obtain rfl : tag = tag' := htag
    rw [Shows] at he hf
    obtain ⟨-, es, hes, hall⟩ := he
    obtain ⟨-, es', hes', hall'⟩ := hf
    rw [hes] at hes'
    cases hes'
    rw [ShowAll.unique content hall hall']

theorem ShowAll.unique (is : List XmlItem) {js : List XmlItem} {es : List Element}
    (his : ShowAll tree es is) (hjs : ShowAll tree es js) : is = js := by
  match is, js with
  | [], [] => rfl
  | [], j :: js =>
    rw [ShowAll] at his
    rw [ShowAll] at hjs
    obtain ⟨e, es', rfl, -⟩ := hjs
    cases his
  | i :: is, [] =>
    rw [ShowAll] at his
    rw [ShowAll] at hjs
    obtain ⟨e, es', rfl, -⟩ := his
    cases hjs
  | i :: is, j :: js =>
    rw [ShowAll] at his hjs
    obtain ⟨e, es', rfl, hi, his⟩ := his
    obtain ⟨e', es'', heq, hj, hjs⟩ := hjs
    cases heq
    rw [ShowsItem.unique i hi hj, ShowAll.unique is his hjs]

theorem ShowsItem.unique (i : XmlItem) {j : XmlItem} {e : Element} (hi : ShowsItem tree e i)
    (hj : ShowsItem tree e j) : i = j := by
  have hkinds : ∀ e ∈ Markup.enclosures, e.kind ≠ .xmlText := by decide
  cases i <;> cases j <;> rw [ShowsItem] at hi <;> rw [ShowsItem] at hj
  case element.element x y =>
    obtain ⟨n, rfl, hx⟩ := hi
    obtain ⟨m, heq, hy⟩ := hj
    cases heq
    rw [Shows.unique x hx hy]
  case element.text | element.enclosed =>
    obtain ⟨n, rfl, -⟩ := hi
    exact absurd hj ShowsToken.ne_node
  case text.element | enclosed.element =>
    obtain ⟨n, rfl, -⟩ := hj
    exact absurd hi ShowsToken.ne_node
  case text.text => rw [XmlText.eq_of_text (hi.unique hj).2]
  case text.enclosed m => exact absurd (hi.unique hj).1.symm (hkinds _ m.isKnown)
  case enclosed.text m _ => exact absurd (hi.unique hj).1 (hkinds _ m.isKnown)
  case enclosed.enclosed =>
    obtain ⟨hkind, htext⟩ := hi.unique hj
    rw [XmlEnclosed.eq_of_text hkind htext]

end

/-! ## The round trip -/

omit [Alphabet] in
/-- A tree that is laid out from a root is made of the children of the root. -/
theorem isMadeOf_ofStem (text : Text) (root : Stem) :
    (Tree.ofStem text root).root.IsMadeOf root.kind root.children.reverse where
  kind_eq := rfl
  elements := Element.haveShapes_iff.1 (Node.haveShapes_layAll _ id _ _)

omit [Alphabet] in
/-- A statement in front of the end of the text is all that a file answers with. -/
theorem exists_statement {file : Node} {kind : Kind} {ss : List Shape}
    (h : file.IsMadeOf .sourceFile [.node kind none ss, .token .eof none [] [] []])
    (hkind : Family.statement.admits kind = true) :
    ∃ statement, file.answer? tree "statements" = some (.nodes [statement]) ∧
      statement.IsMadeOf kind ss := by
  obtain ⟨first, others, hfirst, hothers, helements⟩ := List.forall₂_cons_right_iff.1 h.elements
  obtain ⟨last, none, hlast, hnone, rfl⟩ := List.forall₂_cons_right_iff.1 hothers
  obtain rfl := List.forall₂_nil_right_iff.1 hnone
  obtain ⟨statement, rfl, hstatement⟩ := Node.exists_isMadeOf hfirst
  rw [Element.HasShape] at hlast
  obtain ⟨t, rfl, -⟩ := hlast
  have hadmits : (Role.family .statement).admits statement.kind = true := by
    rw [hstatement.kind_eq]
    exact hkind
  refine ⟨statement, ?_, hstatement⟩
  rw [Node.answer?_eq h.kind_eq (q := .members (.family .statement)) rfl, Question.ask]
  simp [Node.members, Node.nodes, helements, Element.node?, hadmits]

/-- The statement of an assignment leads to a node that shows the element. -/
theorem exists_shows {x : Name} {e : Xml} {statement : Node} (h : statement.IsMadeOf .exprStmt
      [(Shape.assignment x e.shape []).withField .expression, .sign .semicolon none []]) :
    ∃ assignment n : Node,
      statement.answer? tree "expression" = some (.node (some assignment)) ∧
      assignment.kind = .assignExpr ∧
      assignment.answer? tree "right" = some (.node (some n)) ∧ Shows tree n e := by
  have hvalue : e.shape.withField .right = .node .xmlElement (some .right) e.kids := by
    rw [shape_eq]
    rfl
  obtain ⟨assignment, hassignment, hmade⟩ := h.exists_child? (f := .expression)
    (.family .expression) rfl rfl
  have hslot : [((Expr.shapeOfReference (.name x)) Trivia.gap).withField .left,
      .sign .eq none Trivia.gap, e.shape.withField .right].filter
        (fun s => s.slot? == some .right) = [.node .xmlElement (some .right) e.kids] := by
    simp [hvalue]
  obtain ⟨n, hn, hshows⟩ := hmade.exists_child? (.family .expression) hslot rfl
  refine ⟨assignment, n, ?_, hmade.kind_eq, ?_, shows_of_isMadeOf e hshows⟩
  · rw [Node.answer?_eq h.kind_eq (q := .node .expression (.family .expression)) rfl, Question.ask,
      hassignment]
  · rw [Node.answer?_eq hmade.kind_eq (q := .node .right (.family .expression)) rfl,
      Question.ask, hn]

/-- **An element that is printed and parsed shows itself.**  It is the value of the assignment that
it is printed in, and its nodes answer with what was printed: names, attributes and values, the
items of content one by one, and whether the start tag is the whole of it.  There is no
diagnostic. -/
theorem parseWithin_shows {limits : Limits} (hl : limits.Endless) (x : Name) {e : Xml}
    (hparted : e.IsParted) (hbare : e.opensBarely = false)
    (hdepth : e.height + 5 ≤ limits.maxDepth) :
    ∃ p, parseWithin limits (assignedTo x e) = .ok p ∧ p.diagnostics = [] ∧
      ∃ statement assignment n : Node,
        p.tree.root.answer? p.tree "statements" = some (.nodes [statement]) ∧
        statement.kind = .exprStmt ∧
        statement.answer? p.tree "expression" = some (.node (some assignment)) ∧
        assignment.kind = .assignExpr ∧
        assignment.answer? p.tree "right" = some (.node (some n)) ∧ Shows p.tree n e := by
  refine ⟨_, parseWithin_assignedTo hl hparted hbare x hdepth, rfl, ?_⟩
  obtain ⟨statement, hstatement, hmade⟩ :=
    exists_statement (isMadeOf_ofStem (assignedTo x e) (Shape.program x e.shape)) rfl
  obtain ⟨assignment, n, hassignment, hkind, hn, hshows⟩ := exists_shows hmade
  exact ⟨statement, assignment, n, hstatement, hmade.kind_eq, hassignment, hkind, hn, hshows⟩

end

/-- An element with an attribute, text, an element in it and a comment. -/
theorem parseWithin_shows_link : ∃ (x : Name) (e : Xml),
    assignedTo x e = "x = <a b='1'>t<c/><!-- u --></a>;".toList ∧ e.IsParted ∧
    e.opensBarely = false ∧
    ∃ p, parseWithin {} (assignedTo x e) = .ok p ∧ p.diagnostics = [] ∧
      ∃ statement assignment n : Node,
        p.tree.root.answer? p.tree "statements" = some (.nodes [statement]) ∧
        statement.kind = .exprStmt ∧
        statement.answer? p.tree "expression" = some (.node (some assignment)) ∧
        assignment.kind = .assignExpr ∧
        assignment.answer? p.tree "right" = some (.node (some n)) ∧ Shows p.tree n e := by
  let x : Name := ⟨['x'], ⟨'x', [], rfl, by decide +kernel, rfl⟩, by decide +kernel⟩
  let named (c : Char) (hc : isTagStart c = true) : TagName := ⟨c, [], hc, rfl⟩
  let b : XmlAttribute := ⟨named 'b' (by decide +kernel), '\'', ['1'], .inr rfl, by decide⟩
  let comment : XmlEnclosed :=
    ⟨Markup.enclosures[0], List.getElem_mem _, [' ', 'u', ' '], by decide⟩
  let e : Xml := .paired (.named (named 'a' (by decide +kernel)) [b])
    [.text ⟨['t'], by decide, by decide⟩, .element (.closed (named 'c' (by decide +kernel)) []),
      .enclosed comment]
  have hparted : e.IsParted := by
    simp [e, IsParted, AreParted, IsPartedItem, XmlItem.isText]
  refine ⟨x, e, rfl, hparted, rfl, ?_⟩
  exact parseWithin_shows (Limits.endless_maxDepth _) x hparted rfl (by decide)

end Xml

end ActionScript
