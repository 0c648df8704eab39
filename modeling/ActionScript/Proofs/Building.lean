import ActionScript.Tree.Basic

/-!
# Building what was told

The stream that tells a shape is accepted over the source text of that shape, and the tree it builds
is that shape laid out.

* `Builder.run_events`: inside an open node, telling a shape adds it to the node.
* `Tree.ofEvents?_eventsAll`: **telling a root builds its tree.**
-/

set_option autoImplicit false

namespace ActionScript

namespace Builder

/-! ## Cutting -/

theorem cut_append (text rest : Text) : cut (text ++ rest) text.size = .ok (text, rest) := by
  rw [cut, Text.splitAt?_append]

theorem cutAll_flatten (pieces : List Trivia) (rest : Text) :
    cutAll (Trivia.flatten pieces ++ rest) (pieces.map Trivia.measure) = .ok (pieces, rest) := by
  induction pieces with
  | nil => rfl
  | cons t ts ih =>
    have hflatten : Trivia.flatten (t :: ts) ++ rest = t.text ++ (Trivia.flatten ts ++ rest) := by
      simp [Trivia.flatten]
    rw [hflatten, List.map_cons, cutAll, Trivia.measure, cut_append]
    simp only [bind, Except.bind, ih]
    rfl

/-! ## Hearing -/

theorem run_cons {b b' : Builder} {e : Event} {es : List Event} {heard : Nat}
    (h : b.hear e = .ok b') : run b (e :: es) heard = run b' es (heard + 1) := by
  rw [run, h]

theorem run_append {es fs : List Event} {b b' : Builder} {heard : Nat}
    (h : run b es heard = .ok b') : run b (es ++ fs) heard = run b' fs (heard + es.length) := by
  induction es generalizing b heard with
  | nil =>
    cases h
    rfl
  | cons e es ih =>
    cases he : b.hear e with
    | error err =>
      rw [run, he] at h
      cases h
    | ok b₁ =>
      rw [run_cons he] at h
      rw [List.cons_append, run_cons he, ih h, List.length_cons]
      congr 1
      omega

/-- A token inside an open node is cut from the text. -/
theorem hear_token {b : Builder} {stem : Stem} {outer : List Stem}
    (hopen : b.opened = stem :: outer)
    (kind : Kind) (field : Option Field) (leading : List Trivia) (text : Text)
    (trailing : List Trivia) {rest : Text}
    (hrest : b.rest = Trivia.flatten leading ++ text ++ Trivia.flatten trailing ++ rest) :
    b.hear (.token kind field (leading.map Trivia.measure) text.size
        (trailing.map Trivia.measure)) =
      .ok { b with
        rest
        opened := { stem with
          children := .token kind field leading text trailing :: stem.children } :: outer } := by
  simp only [hear, hopen, hrest, List.append_assoc, cutAll_flatten, cut_append, bind, Except.bind]
  rfl

mutual

/-- **Inside an open node, telling a shape adds it to the node.** -/
theorem run_events (s : Shape) {b : Builder} {stem : Stem} {outer : List Stem} {rest : Text}
    (hopen : b.opened = stem :: outer) (hrest : b.rest = s.source ++ rest) (heard : Nat) :
    run b s.events heard =
      .ok { b with rest, opened := { stem with children := s :: stem.children } :: outer } := by
  cases s with
  | token kind field leading text trailing =>
    rw [Shape.source] at hrest
    rw [Shape.events, run_cons (hear_token hopen kind field leading text trailing hrest)]
    rfl
  | node kind field children =>
    rw [Shape.source] at hrest
    have hstart : b.hear (.start kind field) =
        .ok { b with opened := ⟨kind, field, []⟩ :: stem :: outer } := by
      simp only [hear, hopen]
    have hchildren := run_eventsAll children
      (b := { b with opened := ⟨kind, field, []⟩ :: stem :: outer }) rfl hrest (heard + 1)
    rw [Shape.events, run_cons hstart, run_append hchildren]
    simp [run, hear, Stem.shape]

theorem run_eventsAll (ss : List Shape) {b : Builder} {stem : Stem} {outer : List Stem}
    {rest : Text} (hopen : b.opened = stem :: outer) (hrest : b.rest = Shape.sourceAll ss ++ rest)
    (heard : Nat) :
    run b (Shape.eventsAll ss) heard =
      .ok { b with
        rest, opened := { stem with children := ss.reverse ++ stem.children } :: outer } := by
  cases ss with
  | nil =>
    rw [Shape.sourceAll] at hrest
    rw [Shape.eventsAll, run]
    subst hrest
    simp [← hopen]
  | cons s ss =>
    rw [Shape.sourceAll, List.append_assoc] at hrest
    have hfirst := run_events s hopen hrest heard
    rw [Shape.eventsAll, run_append hfirst, run_eventsAll ss rfl rfl]
    simp

end

end Builder

/-- **Telling a root builds its tree.** -/
theorem Tree.ofEvents?_eventsAll (kind : Kind) (field : Option Field) (children : List Shape) :
    Tree.ofEvents? (Shape.sourceAll children) (Shape.eventsAll [.node kind field children]) =
      .ok (Tree.ofStem (Shape.sourceAll children) ⟨kind, field, children.reverse⟩) := by
  have hchildren := Builder.run_eventsAll children
    (b := ⟨Shape.sourceAll children, [⟨kind, field, []⟩], none⟩) rfl
    (List.append_nil _).symm 1
  have hrun : Builder.run ⟨Shape.sourceAll children, [], none⟩
      (Shape.eventsAll [.node kind field children]) 0 =
      .ok ⟨[], [], some ⟨kind, field, children.reverse⟩⟩ := by
    rw [Shape.eventsAll, Shape.eventsAll, Shape.events, List.append_nil, Builder.run_cons rfl,
      Builder.run_append hchildren]
    simp [Builder.run, Builder.hear]
  rw [Tree.ofEvents?, hrun]
  rfl

end ActionScript
