import ActionScript.Proofs.Building
import ActionScript.Proofs.Navigation.Links

/-!
# Trees in rows

A tree can be kept flat: a row of nodes in the order in which they start, a row of all tokens, and
one of children, where those of a node come in when it ends.  Each node keeps the number of its
parent, its place there, the stretch of its children and that of its tokens, and each token its
parent, its place and how many pieces of trivia are beside it.  All of that is written as the events
come, and some of it twice: when a node starts its stretches are not known yet.

Whatever is written, it is what the tree of the stream tells.

* `Arena.hear`, `Arena.ofEvents?`: how a stream is written down.
* `Arena.Shows`: the row of a node tells what the node knows.
* `Arena.hearAll_eventsAll`: **what is told inside an open node is added to the rows.**
* `Arena.ofEvents?_iff_tree`: **a stream is written down exactly if it tells a tree, and the rows
  are those of that tree.**
-/

set_option autoImplicit false

namespace ActionScript

namespace Arena

/-- A child: the number of a node, or the place of a token in the row of tokens. -/
inductive Ref where
  | node (index : Nat)
  | token (index : Nat)
  deriving DecidableEq, Repr

/-- What is kept of a node.  Until it ends its children and tokens are not known. -/
structure NodeRow where
  kind : Kind
  field : Option Field
  parent : Option Nat
  slot : Nat
  firstChild : Nat := 0
  childCount : Nat := 0
  span : Span
  firstToken : Nat
  endToken : Nat := 0
  deriving DecidableEq, Repr

/-- What is kept of a token.  A piece of trivia has no place. -/
structure TokenRow where
  kind : Kind
  field : Option Field
  parent : Nat
  slot : Option Nat
  stop : Nat
  leading : Nat := 0
  trailing : Nat := 0
  deriving DecidableEq, Repr

/-- An open node with the children so far, and what they cover. -/
structure Opening where
  node : Nat
  children : List Ref
  span : Option Span
  deriving DecidableEq, Repr

end Arena

open Arena in
/-- A tree in rows, under construction until no node is open.  In front of the tokens stands one
that ends where the text begins. -/
structure Arena where
  nodes : List NodeRow := []
  tokens : List TokenRow := [⟨.tombstone, none, 0, none, 0, 0, 0⟩]
  children : List Ref := []
  opened : List Opening := []
  /-- The end of the last piece of text. -/
  offset : Nat := 0
  /-- The end of the last token that is no piece of trivia. -/
  tokenEnd : Nat := 0
  hasErrors : Bool := false
  deriving DecidableEq, Repr

namespace Arena

/-! ## Writing -/

/-- Writes a token of the given length down. -/
def push (text : Text) (a : Arena) (size : Nat) (row : Nat → TokenRow) : Except BuildError Arena :=
  let stop := a.offset + size
  if (text.splitAt? stop).isSome
    then .ok { a with offset := stop, tokens := a.tokens ++ [row stop] }
  else .error .brokenCharacter

/-- Writes pieces of trivia down. -/
def pushTrivia (text : Text) (parent : Nat) : Arena → List Measure → Except BuildError Arena
  | a, [] => .ok a
  | a, m :: ms => do
    let a ← a.push text m.size fun stop => ⟨m.kind.kind, none, parent, none, stop, 0, 0⟩
    pushTrivia text parent a ms

/-- What is covered together with one more span. -/
def cover (covered : Option Span) (s : Span) : Span :=
  match covered with
  | some c => c.cover s
  | none => s

/-- The innermost open node covers one more span. -/
def coverFirst (opened : List Opening) (s : Span) : List Opening :=
  match opened with
  | [] => []
  | o :: outer => { o with span := some (cover o.span s) } :: outer

/-- Starts a node, with the nodes that are open around it. -/
def start (a : Arena) (kind : Kind) (field : Option Field) (parent : Option Nat) (slot : Nat)
    (outer : List Opening) : Arena :=
  { a with
    nodes := a.nodes ++
      [{ kind, field, parent, slot, span := .point a.tokenEnd, firstToken := a.tokens.length }]
    opened := ⟨a.nodes.length, [], none⟩ :: outer
    hasErrors := a.hasErrors || kind == .error }

/-- Ends the innermost node. -/
def finish (a : Arena) (o : Opening) (outer : List Opening) : Arena :=
  let span := o.span.getD (.point a.tokenEnd)
  let close (row : NodeRow) : NodeRow :=
    { row with
      firstChild := a.children.length, childCount := o.children.length, span
      endToken := a.tokens.length }
  { a with
    nodes := a.nodes.modify o.node close
    children := a.children ++ o.children
    opened := coverFirst outer span }

/-- Writes one event down. -/
def hear (text : Text) (a : Arena) : Event → Except BuildError Arena
  | .start kind field =>
    match a.opened with
    | [] => if a.nodes.isEmpty then .ok (a.start kind field none 0 []) else .error .secondRoot
    | o :: outer =>
      let child := Ref.node a.nodes.length
      .ok (a.start kind field (some o.node) o.children.length
        ({ o with children := o.children ++ [child] } :: outer))
  | .token kind field leading size trailing =>
    match a.opened with
    | [] => .error .strayToken
    | o :: outer => do
      let child := Ref.token (a.tokens.length + leading.length)
      let a := { a with opened := { o with children := o.children ++ [child] } :: outer }
      let b ← a.pushTrivia text o.node leading
      let c ← b.push text size fun stop =>
        ⟨kind, field, o.node, some o.children.length, stop, leading.length, trailing.length⟩
      let d ← c.pushTrivia text o.node trailing
      return { d with
        opened := coverFirst d.opened ⟨b.offset, c.offset⟩
        tokenEnd := c.offset
        hasErrors := d.hasErrors || kind == .unknown }
  | .finish =>
    match a.opened with
    | [] => .error .nothingOpen
    | o :: outer => .ok (a.finish o outer)

/-- Writes a whole stream down. -/
def hearAll (text : Text) (a : Arena) (events : List Event) : Except BuildError Arena :=
  events.foldlM (hear text) a

/-- The rows of a stream that tells one tree that covers the text. -/
def ofEvents? (text : Text) (events : List Event) : Except BuildError Arena := do
  let a ← hearAll text {} events
  if !a.opened.isEmpty then .error .unfinished
  else if a.nodes.isEmpty then .error .noRoot
  else if a.offset = text.size then .ok a
  else .error .uncovered

/-! ## What the rows show -/

/-- The reference to an element. -/
def Ref.of : Tree.Element → Ref
  | .node n => .node n.info.index
  | .token t => .token (t.leaf.index + 1)

/-- What is kept of a token of a tree. -/
def TokenRow.of (t : Tree.Token) : TokenRow :=
  ⟨t.kind, t.field, t.parent.info.index, t.slot, t.span.stop, t.leading.length, t.trailing.length⟩

/-- The row tells what the node knows: what it is, where it belongs, where it lies, its children and
its tokens. -/
structure Shows (children : List Ref) (row : NodeRow) (n : Tree.Node) : Prop where
  kind : row.kind = n.kind
  field : row.field = n.field
  parent : row.parent = n.parent?.map fun p => p.info.index
  slot : row.slot = n.slot?.getD 0
  span : row.span = n.span
  children : n.elements.map Ref.of <+: children.drop row.firstChild
  childCount : row.childCount = n.elements.length
  tokens : n.tokens.map (fun t => t.leaf.index + 1) = List.range' row.firstToken n.tokens.length
  endToken : row.endToken = row.firstToken + n.tokens.length

theorem Shows.mono {cs ds : List Ref} {row : NodeRow} {n : Tree.Node} (h : Shows cs row n)
    (hmore : cs <+: ds) : Shows ds row n := by
  obtain ⟨more, rfl⟩ := hmore
  refine { h with children := h.children.trans ?_ }
  rw [List.drop_append]
  exact List.prefix_append _ _

/-- The rows are as long as the tree is laid out. -/
structure At (a : Arena) (p : Progress) : Prop where
  offset : a.offset = p.offset
  tokens : a.tokens.length = p.leaves + 1
  nodes : a.nodes.length = p.nodes
  tokenEnd : a.tokenEnd = p.tokenEnd

/-- An open node with more children. -/
def Opening.add (o : Opening) (es : List Tree.Element) : Opening :=
  { o with
    children := o.children ++ es.map Ref.of
    span := (es.map Tree.Element.span).foldl (fun c s => some (cover c s)) o.span }

theorem Opening.add_append (o : Opening) (es fs : List Tree.Element) :
    (o.add es).add fs = o.add (es ++ fs) := by
  simp [add]

theorem Opening.length_add (o : Opening) (es : List Tree.Element) :
    (o.add es).children.length = o.children.length + es.length := by
  simp [add]

/-- Between two moments the rows have got these elements and what is below them, inside of the
innermost node, which is still open. -/
structure Adds (a b : Arena) (o : Opening) (outer : List Opening) (elements : List Tree.Element)
    (nodes : List Tree.Node) (tokens : List Tree.Token) (errors : Bool) : Prop where
  opened : b.opened = o.add elements :: outer
  nodes : ∃ rows, b.nodes = a.nodes ++ rows ∧ List.Forall₂ (Shows b.children) rows nodes
  tokens : b.tokens = a.tokens ++ tokens.map TokenRow.of
  children : a.children <+: b.children
  hasErrors : b.hasErrors = (a.hasErrors || errors)

theorem Adds.append {a b c : Arena} {o : Opening} {outer : List Opening} {es fs : List Tree.Element}
    {ns ms : List Tree.Node} {ts us : List Tree.Token} {x y : Bool}
    (h₁ : Adds a b o outer es ns ts x) (h₂ : Adds b c (o.add es) outer fs ms us y) :
    Adds a c o outer (es ++ fs) (ns ++ ms) (ts ++ us) (x || y) := by
  obtain ⟨rows, hrows, hshows⟩ := h₁.nodes
  obtain ⟨rows', hrows', hshows'⟩ := h₂.nodes
  refine ⟨?_, ⟨rows ++ rows', ?_, ?_⟩, ?_, h₁.children.trans h₂.children, ?_⟩
  · rw [h₂.opened, Opening.add_append]
  · rw [hrows', hrows, List.append_assoc]
  · exact List.rel_append (hshows.imp fun _ _ h => h.mono h₂.children) hshows'
  · rw [h₂.tokens, h₁.tokens, List.map_append, List.append_assoc]
  · rw [h₂.hasErrors, h₁.hasErrors, Bool.or_assoc]

/-- What a whole node has added to the rows when it has ended. -/
structure AddsNode (a b : Arena) (outer : List Opening) (n : Tree.Node) (errors : Bool) : Prop where
  opened : b.opened = coverFirst outer n.span
  nodes : ∃ rows, b.nodes = a.nodes ++ rows ∧ List.Forall₂ (Shows b.children) rows n.descendants
  tokens : b.tokens = a.tokens ++ n.tokens.map TokenRow.of
  children : a.children <+: b.children
  hasErrors : b.hasErrors = (a.hasErrors || errors)

/-! ## Writing shapes -/

/-- This is left of the text behind the offset. -/
def Leaves (text : Text) (offset : Nat) (rest : Text) : Prop :=
  ∃ read, text = read ++ rest ∧ read.size = offset

section
variable {text piece rest : Text} {a b : Arena} {p : Progress} {n : Tree.Node}

theorem Leaves.behind {offset : Nat} (h : Leaves text offset (piece ++ rest)) :
    Leaves text (offset + piece.size) rest := by
  obtain ⟨read, rfl, hread⟩ := h
  exact ⟨read ++ piece, (List.append_assoc _ _ _).symm, by rw [Text.size_append, hread]⟩

theorem push_eq_ok (row : Nat → TokenRow) (h : Leaves text a.offset (piece ++ rest)) :
    a.push text piece.size row =
      .ok { a with
        offset := a.offset + piece.size
        tokens := a.tokens ++ [row (a.offset + piece.size)] } := by
  obtain ⟨read, rfl, hread⟩ := h
  have hcut := Text.splitAt?_append (read ++ piece) rest
  rw [List.append_assoc, Text.size_append, hread] at hcut
  rw [push, hcut]
  rfl

theorem length_trivia (p : Progress) (ts : List Trivia) : (p.trivia ts).1.length = ts.length := by
  induction ts generalizing p with
  | nil => rfl
  | cons t ts ih => exact congrArg (· + 1) (ih _)

theorem pushTrivia_eq_ok (ts : List Trivia) (h : Leaves text a.offset (Trivia.flatten ts ++ rest))
    (hoffset : a.offset = p.offset) :
    a.pushTrivia text n.info.index (ts.map Trivia.measure) = .ok { a with
      offset := (p.trivia ts).2.offset
      tokens := a.tokens ++ ((p.trivia ts).1.map n.trivia).map TokenRow.of } := by
  induction ts generalizing a p with
  | nil =>
    rw [Progress.trivia, ← hoffset]
    simp [pushTrivia]
  | cons t ts ih =>
    have hflatten : Trivia.flatten (t :: ts) = t.text ++ Trivia.flatten ts := rfl
    rw [hflatten, List.append_assoc] at h
    have hpush := push_eq_ok (fun stop => ⟨t.kind.kind, none, n.info.index, none, stop, 0, 0⟩) h
    rw [List.map_cons, pushTrivia, Trivia.measure, hpush]
    refine (ih (p := (p.leaf t.kind.kind none t.text).2) h.behind ?_).trans ?_
    · exact congrArg (· + t.text.size) hoffset
    · rw [hoffset]
      simp only [List.append_assoc]
      rfl

/-- What writing a token with its trivia comes to. -/
theorem hear_token_eq_ok {o : Opening} {outer : List Opening} (hopen : a.opened = o :: outer)
    (hnode : o.node = n.info.index) (hat : a.At p) (kind : Kind) (field : Option Field)
    (leading : List Trivia) (own : Text) (trailing : List Trivia)
    (h : Leaves text a.offset (Trivia.flatten leading ++ own ++ Trivia.flatten trailing ++ rest)) :
    a.hear text
      (.token kind field (leading.map Trivia.measure) own.size (trailing.map Trivia.measure)) =
      .ok { a with
        opened := { o with
          children := o.children ++ [.token (a.tokens.length + leading.length)]
          span :=
            some (cover o.span (p.cluster kind field leading own trailing).1.leaf.span) } :: outer
        tokens := a.tokens ++
          (n.clusterTokens o.children.length (p.cluster kind field leading own trailing).1).map
            TokenRow.of
        offset := (p.cluster kind field leading own trailing).2.offset
        tokenEnd := (p.cluster kind field leading own trailing).2.tokenEnd
        hasErrors := a.hasErrors || kind == .unknown } := by
  let q : Progress := (p.trivia leading).2
  let r : Progress := (q.leaf kind field own).2
  simp only [List.append_assoc] at h
  have hlead : a.offset + (Trivia.flatten leading).size = q.offset := by
    rw [hat.offset]
    exact (p.showPieces_trivia leading).2.symm
  have hown := h.behind
  rw [hlead] at hown
  have hbefore (b : Arena) (hb : b.offset = a.offset) :=
    pushTrivia_eq_ok (a := b) (n := n) leading (hb ▸ h) (hb.trans hat.offset)
  have hmiddle (b : Arena) (hb : b.offset = q.offset) (row : Nat → TokenRow) :=
    push_eq_ok (a := b) row (hb ▸ hown)
  have htrail : Leaves text r.offset (Trivia.flatten trailing ++ rest) := hown.behind
  have hbehind (b : Arena) (hb : b.offset = r.offset) :=
    pushTrivia_eq_ok (a := b) (n := n) (p := { r with tokenEnd := r.offset }) trailing
      (hb ▸ htrail) hb
  simp only [hear, hopen, hnode, List.length_map, bind, Except.bind, hbefore]
  have hq : (p.trivia leading).2.offset = q.offset := rfl
  simp only [hmiddle, hq]
  have hr : q.offset + own.size = r.offset := rfl
  simp only [hbehind, hr]
  have hrow :
      TokenRow.of (n.token o.children.length (p.cluster kind field leading own trailing).1) =
      ⟨kind, field, n.info.index, some o.children.length, r.offset, leading.length,
        trailing.length⟩ := by
    rw [← length_trivia p leading, ← length_trivia { r with tokenEnd := r.offset } trailing]
    rfl
  have hend : (p.cluster kind field leading own trailing).2.tokenEnd = r.offset :=
    Progress.trivia_tokenEnd { r with tokenEnd := r.offset } trailing
  rw [Tree.Node.clusterTokens, List.map_append, List.map_cons, hrow, hend, List.append_assoc,
    List.append_assoc]
  rfl

/-- **Writing a token with its trivia adds it to the innermost node.** -/
theorem adds_token {o : Opening} {outer : List Opening} (hopen : a.opened = o :: outer)
    (hnode : o.node = n.info.index) (hat : a.At p) (kind : Kind) (field : Option Field)
    (leading : List Trivia) (own : Text) (trailing : List Trivia)
    (h : Leaves text a.offset (Trivia.flatten leading ++ own ++ Trivia.flatten trailing ++ rest)) :
    ∃ b, a.hear text
        (.token kind field (leading.map Trivia.measure) own.size (trailing.map Trivia.measure)) =
          .ok b ∧
      b.At (p.cluster kind field leading own trailing).2 ∧
      Adds a b o outer
        [.token (n.token o.children.length (p.cluster kind field leading own trailing).1)] []
        (n.clusterTokens o.children.length (p.cluster kind field leading own trailing).1)
          (kind == .unknown) := by
  have hnumbers := (p.numbered_cluster kind field leading own trailing).next_eq
  have hindex :
      (p.cluster kind field leading own trailing).1.leaf.index = p.leaves + leading.length := by
    rw [← length_trivia p leading]
    exact (p.numbered_trivia leading).next_eq
  refine ⟨_, hear_token_eq_ok hopen hnode hat kind field leading own trailing h,
    ⟨rfl, ?_, ?_, rfl⟩, ⟨?_, ⟨[], ?_, .nil⟩, rfl, List.prefix_rfl, rfl⟩⟩
  · rw [hnumbers, List.length_append, hat.tokens, List.length_map]
    simp only [Tree.Node.clusterTokens, Cluster.leaves, List.length_append, List.length_map,
      List.length_cons]
    omega
  · rw [Progress.cluster_nodes]
    exact hat.nodes
  · have hchild : a.tokens.length + leading.length = p.leaves + leading.length + 1 := by
      rw [hat.tokens]
      omega
    rw [hchild, ← hindex]
    rfl
  · exact (List.append_nil _).symm

theorem modify_append_cons {α : Type} (xs : List α) (y : α) (ys : List α) (f : α → α) :
    (xs ++ y :: ys).modify xs.length f = xs ++ f y :: ys := by
  induction xs with
  | nil => rfl
  | cons x xs ih => exact congrArg (x :: ·) ih

/-- **When a node ends its row is completed**, and shows the node, if what is below it was added
since it started. -/
theorem finish_of_adds {kind : Kind} {field : Option Field} {parent : Option Nat} {slot : Nat}
    {outer : List Opening} {errors : Bool} {o : Opening}
    (h : Adds (a.start kind field parent slot outer) b ⟨a.nodes.length, [], none⟩ outer n.elements
      (n.nodesFrom 0 n.children) n.tokens errors)
    (ho : b.opened = o :: outer) (hkind : n.kind = kind) (hfield : n.field = field)
    (hparent : parent = n.parent?.map fun p => p.info.index) (hslot : slot = n.slot?.getD 0)
    (hspan : n.span = o.span.getD (.point b.tokenEnd))
    (hindices : n.tokens.map (fun t => t.leaf.index + 1) = List.range' a.tokens.length
      n.tokens.length) :
    AddsNode a (b.finish o outer) outer n (kind == .error || errors) := by
  have hopened := h.opened
  rw [ho, List.cons.injEq] at hopened
  obtain ⟨rfl, -⟩ := hopened
  obtain ⟨rows, hrows, hshows⟩ := h.nodes
  have hmore : b.children <+: b.children ++ n.elements.map Ref.of := List.prefix_append _ _
  have htokens : b.tokens = a.tokens ++ n.tokens.map TokenRow.of := h.tokens
  let row : NodeRow :=
    { kind, field, parent, slot
      firstChild := b.children.length, childCount := (n.elements.map Ref.of).length, span := n.span
      firstToken := a.tokens.length, endToken := b.tokens.length }
  have hrow : Shows (b.children ++ n.elements.map Ref.of) row n := by
    refine ⟨hkind.symm, hfield.symm, hparent, hslot, rfl, ?_, List.length_map _, hindices, ?_⟩
    · exact ⟨[], by rw [List.drop_left, List.append_nil]⟩
    · show b.tokens.length = _
      rw [htokens, List.length_append, List.length_map]
  refine ⟨?_, ⟨row :: rows, ?_, .cons hrow (hshows.imp fun _ _ h => h.mono hmore)⟩, htokens,
    h.children.trans hmore, ?_⟩
  · exact (congrArg (coverFirst outer) hspan).symm
  · have hnodes : b.nodes = a.nodes ++
        { row with firstChild := 0, childCount := 0, span := .point a.tokenEnd, endToken := 0 } ::
          rows := by
      rw [hrows, start, List.append_assoc]
      rfl
    show b.nodes.modify a.nodes.length _ = _
    rw [hnodes, modify_append_cons]
    simp only [row, hspan]
    rfl
  · show b.hasErrors = _
    rw [h.hasErrors, start, Bool.or_assoc]

/-- The span that a node is laid out with is what its children cover, or lies at the last token. -/
theorem info_span (p q : Progress) (kind : Kind) (field : Option Field) (children : List Item) :
    (p.info q kind field children).span =
      ((children.map Item.span).foldl (fun c s => some (cover c s)) none).getD
        (.point q.tokenEnd) := by
  cases children with
  | nil => rfl
  | cons i is =>
    have hfold (c : Span) : (is.map Item.span).foldl (fun c s => some (cover c s)) (some c) =
        some (is.foldl (fun s i => s.cover i.span) c) := by
      induction is generalizing c with
      | nil => rfl
      | cons i is ih => exact ih (c.cover i.span)
    exact (congrArg (fun c => c.getD (Span.point q.tokenEnd)) (hfold i.span)).symm

/-- The tokens below a node are numbered on from where it is laid out. -/
theorem indices_of_layAll {p : Progress} {ss : List Shape}
    (hchildren : n.children = (p.layAll ss).1) (hat : a.tokens.length = p.leaves + 1) :
    n.tokens.map (fun t => t.leaf.index + 1) = List.range' a.tokens.length n.tokens.length := by
  have hindices := (p.numbered_layAll ss).indices
  rw [← hchildren, ← n.map_leaf_tokens, List.map_map, List.length_map] at hindices
  rw [hat, List.range'_succ_left, ← hindices, List.map_map]
  rfl

theorem hearAll_append {es fs : List Event} (h : hearAll text a es = .ok b) :
    hearAll text a (es ++ fs) = hearAll text b fs := by
  rw [hearAll, List.foldlM_append]
  rw [hearAll] at h
  rw [h]
  rfl

/-- A node is written down with everything inside. -/
theorem hearAll_node {kind : Kind} {field : Option Field} {children : List Shape}
    {parent : Option Nat} {slot : Nat} {outer : List Opening}
    (hinfo : n.info = p.info (Progress.layAll { p with nodes := p.nodes + 1 } children).2 kind
      field n.children)
    (hchildren : n.children = (Progress.layAll { p with nodes := p.nodes + 1 } children).1)
    (hparent : parent = n.parent?.map fun p => p.info.index) (hslot : slot = n.slot?.getD 0)
    (hat : a.At p)
    (hstart : a.hear text (.start kind field) = .ok (a.start kind field parent slot outer))
    (hbelow : ∃ b, hearAll text (a.start kind field parent slot outer)
      (Shape.eventsAll children) = .ok b ∧
      b.At (Progress.layAll { p with nodes := p.nodes + 1 } children).2 ∧
      Adds (a.start kind field parent slot outer) b ⟨a.nodes.length, [], none⟩ outer
        (n.elementsFrom 0 (Progress.layAll { p with nodes := p.nodes + 1 } children).1)
        (n.nodesFrom 0 (Progress.layAll { p with nodes := p.nodes + 1 } children).1)
        (n.tokensFrom 0 (Progress.layAll { p with nodes := p.nodes + 1 } children).1)
        (Shape.hasErrorsAll children)) :
    ∃ b, hearAll text a (Shape.node kind field children).events = .ok b ∧
      b.At (Progress.layAll { p with nodes := p.nodes + 1 } children).2 ∧
      AddsNode a b outer n (Shape.node kind field children).hasErrors := by
  obtain ⟨b, hb, hatb, hadds⟩ := hbelow
  rw [← hchildren, ← n.elements_eq] at hadds
  obtain ⟨o, ho, hcovered⟩ : ∃ o, b.opened = o :: outer ∧
      o.span = (n.elements.map Tree.Element.span).foldl (fun c s => some (cover c s)) none :=
    ⟨_, hadds.opened, rfl⟩
  have hspan : n.span = o.span.getD (.point b.tokenEnd) := by
    rw [hcovered, n.map_span_elements, hatb.tokenEnd, ← info_span p _ kind field, ← hinfo]
    rfl
  have hkind : n.kind = kind := congrArg NodeInfo.kind hinfo
  have hfield : n.field = field := congrArg NodeInfo.field hinfo
  have hnode := finish_of_adds hadds ho hkind hfield hparent hslot hspan
    (indices_of_layAll hchildren hat.tokens)
  refine ⟨b.finish o outer, ?_,
    ⟨hatb.offset, hatb.tokens, (List.length_modify _ _ _).trans hatb.nodes, hatb.tokenEnd⟩, ?_⟩
  · rw [Shape.events, hearAll, List.foldlM_cons, hstart]
    show hearAll text _ (Shape.eventsAll children ++ [.finish]) = _
    rw [hearAll_append hb, hearAll, List.foldlM_cons, hear, ho]
    rfl
  · rw [Shape.hasErrors]
    exact hnode

end

mutual

theorem hearAll_events (s : Shape) {text rest : Text} {a : Arena} {p : Progress} {n : Tree.Node}
    {slot : Nat} {o : Opening} {outer : List Opening} (hopen : a.opened = o :: outer)
    (hnode : o.node = n.info.index) (hslot : o.children.length = slot) (hat : a.At p)
    (h : Leaves text a.offset (s.source ++ rest)) :
    ∃ b, hearAll text a s.events = .ok b ∧ b.At (p.lay s).2 ∧
      Adds a b o outer [n.element slot (p.lay s).1] (n.nodesOf slot (p.lay s).1)
        (n.tokensOf slot (p.lay s).1) s.hasErrors := by
  subst hslot
  cases s with
  | token kind field leading own trailing =>
    rw [Shape.source] at h
    obtain ⟨b, hb, hatb, hadds⟩ := adds_token hopen hnode hat kind field leading own trailing h
    refine ⟨b, ?_, ?_, ?_⟩
    · rw [Shape.events, hearAll, List.foldlM_cons, hb]
      rfl
    · rw [Progress.lay]
      exact hatb
    · rw [Progress.lay, Tree.Node.nodesOf, Tree.Node.tokensOf, Shape.hasErrors]
      exact hadds
  | node kind field children =>
    rw [Shape.source] at h
    let laid := Progress.layAll { p with nodes := p.nodes + 1 } children
    let c : Tree.Node := n.child o.children.length (p.info laid.2 kind field laid.1) laid.1
    have hstart :
        a.hear text (.start kind field) = .ok (a.start kind field (some o.node) o.children.length
        ({ o with children := o.children ++ [.node a.nodes.length] } :: outer)) := by
      rw [hear, hopen]
    have hparent : some o.node = c.parent?.map fun p => p.info.index := by
      rw [hnode]
      rfl
    have hinside : (a.start kind field (some o.node) o.children.length
        ({ o with children := o.children ++ [.node a.nodes.length] } :: outer)).At
          { p with nodes := p.nodes + 1 } :=
      ⟨hat.offset, hat.tokens, List.length_append.trans (congrArg (· + 1) hat.nodes), hat.tokenEnd⟩
    obtain ⟨b, hb, hatb, hadds⟩ := hearAll_node (n := c) rfl rfl hparent rfl hat hstart
      (hearAll_eventsAll children rfl hat.nodes rfl hinside h)
    rw [Progress.lay]
    refine ⟨b, hb, hatb, ⟨?_, ?_, ?_, hadds.children, hadds.hasErrors⟩⟩
    · rw [hadds.opened, coverFirst, hat.nodes]
      rfl
    · rw [Tree.Node.nodesOf]
      exact hadds.nodes
    · rw [Tree.Node.tokensOf]
      exact hadds.tokens

/-- **What is told inside an open node is added to the rows.** -/
theorem hearAll_eventsAll (ss : List Shape) {text rest : Text} {a : Arena} {p : Progress}
    {n : Tree.Node}
    {slot : Nat} {o : Opening} {outer : List Opening} (hopen : a.opened = o :: outer)
    (hnode : o.node = n.info.index) (hslot : o.children.length = slot) (hat : a.At p)
    (h : Leaves text a.offset (Shape.sourceAll ss ++ rest)) :
    ∃ b, hearAll text a (Shape.eventsAll ss) = .ok b ∧ b.At (p.layAll ss).2 ∧
      Adds a b o outer (n.elementsFrom slot (p.layAll ss).1) (n.nodesFrom slot (p.layAll ss).1)
        (n.tokensFrom slot (p.layAll ss).1) (Shape.hasErrorsAll ss) := by
  cases ss with
  | nil =>
    rw [Shape.eventsAll, Progress.layAll, Tree.Node.nodesFrom, Tree.Node.tokensFrom,
      Shape.hasErrorsAll]
    refine ⟨a, rfl, hat, ⟨?_, ⟨[], ?_, .nil⟩, ?_, List.prefix_rfl, ?_⟩⟩
    · simp [hopen, Tree.Node.elementsFrom, Opening.add]
    · simp
    · simp
    · simp
  | cons s ss =>
    rw [Shape.sourceAll, List.append_assoc] at h
    obtain ⟨b, hb, hatb, hadds⟩ := hearAll_events s hopen hnode hslot hat h
    have hnext : (o.add [n.element slot (p.lay s).1]).children.length = slot + 1 := by
      rw [Opening.length_add, hslot]
      rfl
    have hbehind : Leaves text b.offset (Shape.sourceAll ss ++ rest) := by
      rw [hatb.offset, Progress.offset_lay, ← hat.offset]
      exact h.behind
    obtain ⟨c, hc, hatc, hmore⟩ := hearAll_eventsAll ss hadds.opened hnode hnext hatb hbehind
    refine ⟨c, ?_, ?_, ?_⟩
    · rw [Shape.eventsAll, hearAll_append hb, hc]
    · rw [Progress.layAll]
      exact hatc
    · rw [Progress.layAll, Tree.Node.elementsFrom, Tree.Node.nodesFrom, Tree.Node.tokensFrom,
        Shape.hasErrorsAll]
      exact hadds.append hmore

end

/-- The rows are those of the tree: every node and every token is kept with what it knows, and
nothing else is. -/
structure Mirrors (a : Arena) (t : Tree) : Prop where
  nodes : List.Forall₂ (Shows a.children) a.nodes t.root.descendants
  tokens : a.tokens = ⟨.tombstone, none, 0, none, 0, 0, 0⟩ :: t.tokens.map TokenRow.of
  hasErrors : a.hasErrors = t.hasErrors

/-- **The stream of a root is written down, and the rows are those of its tree.** -/
theorem mirrors_of_stem (root : Stem) : ∃ a, ofEvents? root.shape.source root.shape.events = .ok a ∧
    a.Mirrors (Tree.ofStem root.shape.source root) := by
  let t := Tree.ofStem root.shape.source root
  let text := root.shape.source
  have hat : ({} : Arena).At {} := ⟨rfl, rfl, rfl, rfl⟩
  have hsource : text = Shape.sourceAll root.children.reverse := by
    show root.shape.source = _
    rw [Stem.shape, Shape.source]
  have htext : Leaves text 0 (Shape.sourceAll root.children.reverse ++ []) :=
    ⟨[], by rw [hsource, List.nil_append, List.append_nil], rfl⟩
  obtain ⟨a, ha, hata, hadds⟩ := hearAll_node (n := t.root) rfl rfl rfl rfl hat rfl
    (hearAll_eventsAll root.children.reverse (n := t.root) rfl rfl rfl ⟨rfl, rfl, rfl, rfl⟩ htext)
  obtain ⟨rows, hrows, hshows⟩ := hadds.nodes
  obtain rfl : a.nodes = rows := hrows
  have hsome : a.nodes.isEmpty = false := by
    cases hnodes : a.nodes with
    | nil =>
      rw [hnodes, Tree.Node.descendants] at hshows
      cases hshows
    | cons row rows => rfl
  have hopened : a.opened = [] := hadds.opened
  have hoffset : a.offset = text.size := by
    rw [hata.offset, Progress.offset_layAll, hsource]
    exact Nat.zero_add _
  refine ⟨a, ?_, hshows, hadds.tokens, hadds.hasErrors⟩
  show (hearAll text {} root.shape.events >>= _) = _
  rw [Stem.shape, ha]
  show (if (!a.opened.isEmpty) = true then _ else _) = _
  rw [hopened, hsome, if_neg (by decide), if_neg (by decide)]
  exact if_pos hoffset

/-! ## Which streams are written down -/

section
variable {text rest : Text} {a a' : Arena} {b : Builder}

theorem cut_of_push {size : Nat} {row : Nat → TokenRow} (h : a.push text size row = .ok a')
    (hrest : Leaves text a.offset rest) : ∃ piece more, Builder.cut rest size = .ok (piece, more) ∧
      Leaves text a'.offset more ∧ a'.opened = a.opened ∧ a'.nodes = a.nodes := by
  rw [push] at h
  split at h
  · next hcut =>
    cases h
    obtain ⟨⟨before, after⟩, hsplit⟩ := Option.isSome_iff_exists.1 hcut
    obtain ⟨htext, hsize⟩ := Text.splitAt?_eq_some hsplit
    obtain ⟨read, rfl, hread⟩ := hrest
    rw [← hread] at hsize
    have hboundary : (read ++ rest).IsBoundary (read.size + size) := ⟨before, after, htext, hsize⟩
    obtain ⟨piece, more, rfl, rfl⟩ := hboundary.of_append
    refine ⟨piece, more, Builder.cut_append piece more, ⟨read ++ piece, ?_, ?_⟩, rfl, rfl⟩
    · rw [List.append_assoc]
    · rw [Text.size_append, hread]
  · cases h

theorem cutAll_of_pushTrivia {parent : Nat} {ms : List Measure}
    (h : a.pushTrivia text parent ms = .ok a') (hrest : Leaves text a.offset rest) :
    ∃ pieces more, Builder.cutAll rest ms = .ok (pieces, more) ∧
      Leaves text a'.offset more ∧ a'.opened = a.opened ∧ a'.nodes = a.nodes := by
  induction ms generalizing a rest with
  | nil =>
    cases h
    exact ⟨[], rest, rfl, hrest, rfl, rfl⟩
  | cons m ms ih =>
    rw [pushTrivia] at h
    obtain ⟨c, hc, h⟩ := Builder.bind_eq_ok h
    obtain ⟨piece, more, hcut, hmore, hopened, hnodes⟩ := cut_of_push hc hrest
    obtain ⟨pieces, others, hcuts, hothers, hopened', hnodes'⟩ := ih h hmore
    refine ⟨⟨m.kind, piece⟩ :: pieces, others, ?_, hothers, hopened'.trans hopened,
      hnodes'.trans hnodes⟩
    rw [Builder.cutAll, hcut]
    show (Builder.cutAll more ms >>= _) = _
    rw [hcuts]
    rfl

/-- The rows and a listener have heard the same: as many nodes are open, and the same text is to
come. -/
structure Agrees (text : Text) (a : Arena) (b : Builder) : Prop where
  depth : a.opened.length = b.opened.length
  fresh : a.nodes = [] ↔ b.opened = [] ∧ b.root = none
  rest : Leaves text a.offset b.rest

theorem length_coverFirst (opened : List Opening) (s : Span) :
    (coverFirst opened s).length = opened.length := by
  cases opened <;> rfl

theorem Agrees.exists_stem {o : Opening} {outer : List Opening} (h : Agrees text a b)
    (hopen : a.opened = o :: outer) : ∃ stem stems, b.opened = stem :: stems := by
  have hdepth := h.depth
  rw [hopen] at hdepth
  exact List.exists_cons_of_length_eq_add_one hdepth.symm

theorem Agrees.hear_start {kind : Kind} {field : Option Field} (h : Agrees text a b)
    (he : a.hear text (.start kind field) = .ok a') :
    ∃ b', b.hear (.start kind field) = .ok b' ∧ Agrees text a' b' := by
  have hdepth := h.depth
  refine ⟨{ b with opened := ⟨kind, field, []⟩ :: b.opened }, ?_⟩
  cases hopen : a.opened with
  | nil =>
    have hb : b.opened = [] := List.length_eq_zero_iff.1 (by rw [← hdepth, hopen]; rfl)
    simp only [Arena.hear, hopen] at he
    split at he
    · next hempty =>
      cases he
      have hroot : b.root = none := (h.fresh.1 (List.isEmpty_iff.1 hempty)).2
      refine ⟨?_, ⟨?_, ?_, h.rest⟩⟩
      · rw [Builder.hear, hb, hroot]
      · rw [hb]
        rfl
      · simp [Arena.start]
    · cases he
  | cons o outer =>
    rw [Arena.hear, hopen] at he
    cases he
    obtain ⟨stem, stems, hb⟩ := h.exists_stem hopen
    refine ⟨?_, ⟨?_, ?_, h.rest⟩⟩
    · rw [Builder.hear, hb]
    · rw [hopen] at hdepth
      exact congrArg (· + 1) hdepth
    · simp [Arena.start]

theorem Agrees.hear_token {kind : Kind} {field : Option Field} {leading trailing : List Measure}
    {size : Nat} (h : Agrees text a b)
    (he : a.hear text (.token kind field leading size trailing) = .ok a') :
    ∃ b', b.hear (.token kind field leading size trailing) = .ok b' ∧ Agrees text a' b' := by
  have hdepth := h.depth
  cases hopen : a.opened with
  | nil =>
    rw [Arena.hear, hopen] at he
    cases he
  | cons o outer =>
    rw [Arena.hear, hopen] at he
    obtain ⟨c, hc, he⟩ := Builder.bind_eq_ok he
    obtain ⟨d, hd, he⟩ := Builder.bind_eq_ok he
    obtain ⟨f, hf, he⟩ := Builder.bind_eq_ok he
    cases he
    obtain ⟨before, rest₁, hbefore, hrest₁, hopened₁, hnodes₁⟩ := cutAll_of_pushTrivia hc h.rest
    obtain ⟨own, rest₂, hown, hrest₂, hopened₂, hnodes₂⟩ := cut_of_push hd hrest₁
    obtain ⟨behind, rest₃, hbehind, hrest₃, hopened₃, hnodes₃⟩ := cutAll_of_pushTrivia hf hrest₂
    obtain ⟨stem, stems, hb⟩ := h.exists_stem hopen
    refine ⟨{ b with
      rest := rest₃
      opened := { stem with children := .token kind field before own behind :: stem.children } ::
        stems }, ?_,
      ⟨?_, ?_, hrest₃⟩⟩
    · rw [Builder.hear, hb]
      simp only [hbefore, hown, hbehind, bind, Except.bind]
      rfl
    · have hlength : f.opened.length = stems.length + 1 := by
        rw [hopened₃, hopened₂, hopened₁]
        rw [hopen, hb] at hdepth
        exact hdepth
      exact (length_coverFirst _ _).trans hlength
    · have hnodes : f.nodes = a.nodes := by rw [hnodes₃, hnodes₂, hnodes₁]
      have hnone : f.nodes ≠ [] := by
        rw [hnodes, Ne, h.fresh, hb]
        simp
      simp [hnone]

theorem Agrees.hear_finish (h : Agrees text a b) (he : a.hear text .finish = .ok a') :
    ∃ b', b.hear .finish = .ok b' ∧ Agrees text a' b' := by
  have hdepth := h.depth
  cases hopen : a.opened with
  | nil =>
    rw [Arena.hear, hopen] at he
    cases he
  | cons o outer =>
    rw [Arena.hear, hopen] at he
    cases he
    have hnone (stem : Stem) (stems : List Stem) (hb : b.opened = stem :: stems) :
        (a.finish o outer).nodes ≠ [] := by
      have hsome : a.nodes ≠ [] := by
        rw [Ne, h.fresh, hb]
        simp
      rw [finish, Ne, ← List.length_eq_zero_iff, List.length_modify, List.length_eq_zero_iff]
      exact hsome
    rw [hopen] at hdepth
    have hlength : (a.finish o outer).opened.length = outer.length := length_coverFirst _ _
    match hb : b.opened with
    | [] =>
      rw [hb] at hdepth
      cases hdepth
    | [stem] =>
      rw [hb] at hdepth
      refine ⟨{ b with opened := [], root := some stem }, by rw [Builder.hear, hb],
        ⟨?_, ?_, h.rest⟩⟩
      · exact hlength.trans (Nat.succ.inj hdepth)
      · simp [hnone stem [] hb]
    | stem :: parent :: stems =>
      rw [hb] at hdepth
      refine
        ⟨{ b with opened := { parent with children := stem.shape :: parent.children } :: stems },
          by rw [Builder.hear, hb], ⟨?_, ?_, h.rest⟩⟩
      · exact hlength.trans (Nat.succ.inj hdepth)
      · simp [hnone stem _ hb]

/-- **What is written down is heard as well.** -/
theorem Agrees.hear {e : Event} (h : Agrees text a b) (he : a.hear text e = .ok a') :
    ∃ b', b.hear e = .ok b' ∧ Agrees text a' b' := by
  cases e with
  | start kind field => exact h.hear_start he
  | token kind field leading size trailing => exact h.hear_token he
  | finish => exact h.hear_finish he

theorem Agrees.run {events : List Event} (heard : Nat) (h : Agrees text a b)
    (ha : hearAll text a events = .ok a') : ∃ b', b.run events heard = .ok b' ∧
    Agrees text a' b' := by
  induction events generalizing a b heard with
  | nil =>
    cases ha
    exact ⟨b, rfl, h⟩
  | cons e es ih =>
    rw [hearAll, List.foldlM_cons] at ha
    obtain ⟨c, hc, ha⟩ := Builder.bind_eq_ok ha
    obtain ⟨d, hd, hagrees⟩ := h.hear hc
    obtain ⟨b', hb', hfinal⟩ := ih (heard + 1) hagrees ha
    exact ⟨b', (Builder.run_cons hd).trans hb', hfinal⟩

end

theorem exists_tree {text : Text} {events : List Event} {a : Arena}
    (h : ofEvents? text events = .ok a) : ∃ tree, Tree.ofEvents? text events = .ok tree := by
  obtain ⟨c, hc, h⟩ := Builder.bind_eq_ok h
  have hagrees : Agrees text {} ⟨text, [], none⟩ := ⟨rfl, by simp, [], rfl, rfl⟩
  obtain ⟨⟨rest, opened, root⟩, hb, hdepth, hfresh, read, htext, hread⟩ := hagrees.run 0 hc
  by_cases hclosed : c.opened = []
  · by_cases hnone : c.nodes = []
    · simp [hclosed, hnone] at h
    · by_cases hsize : c.offset = text.size
      · obtain rfl : opened = [] := List.length_eq_zero_iff.1 (by rw [← hdepth, hclosed]; rfl)
        obtain ⟨stem, rfl⟩ : ∃ stem, root = some stem := by
          cases root with
          | none => exact absurd (hfresh.2 ⟨rfl, rfl⟩) hnone
          | some stem => exact ⟨stem, rfl⟩
        have hrest : rest = [] := by
          have hsizes : text.size = read.size + rest.size := by
            rw [← Text.size_append]
            exact congrArg Text.size htext
          exact Text.eq_nil_of_size (by omega)
        subst hrest
        refine ⟨Tree.ofStem text stem, ?_⟩
        rw [Tree.ofEvents?, hb]
        rfl
      · simp [hclosed, hnone, hsize] at h
  · simp [hclosed] at h

/-- **A stream is written down exactly if it tells a tree, and the rows are those of that tree.** -/
theorem ofEvents?_iff_tree (text : Text) (events : List Event) :
    ((∃ a, ofEvents? text events = .ok a) ↔ ∃ tree, Tree.ofEvents? text events = .ok tree) ∧
    ∀ a tree, ofEvents? text events = .ok a → Tree.ofEvents? text events = .ok tree →
      a.Mirrors tree := by
  have hmirrors {tree : Tree} (h : Tree.ofEvents? text events = .ok tree) :
      ∃ a, ofEvents? text events = .ok a ∧ a.Mirrors tree := by
    obtain ⟨root, rfl, rfl, rfl⟩ := Tree.ofEvents?_eq_ok.1 h
    exact mirrors_of_stem root
  refine ⟨⟨fun ⟨a, ha⟩ => exists_tree ha, fun ⟨tree, h⟩ => ?_⟩, fun a tree ha htree => ?_⟩
  · obtain ⟨a, ha, -⟩ := hmirrors h
    exact ⟨a, ha⟩
  · obtain ⟨c, hc, h⟩ := hmirrors htree
    rw [ha] at hc
    cases hc
    exact h

end Arena

end ActionScript
