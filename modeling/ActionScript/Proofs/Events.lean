import Mathlib.Algebra.Ring.Nat
import ActionScript.Proofs.Building
import ActionScript.Proofs.Layout

/-!
# Streams that tell a tree

A stream of events is accepted over a text exactly if it tells a tree of that text: one root, whose
nodes start and end in step and which holds all tokens, and whose pieces of text end between
characters and make up the text.

* `Event.OneRoot`, `Event.Covers`: what that means for a stream.
* `Builder.Heard`: what the builder holds of the events it has heard.
* `Tree.ofEvents?_eq_ok`: **an accepted stream is that of its root**, and its tree that root laid
  out.
* `Event.exists_stem`: a stream that tells a tree of the text is that of some root.
-/

set_option autoImplicit false

namespace ActionScript

/-! ## Boundaries of characters -/

namespace Text

theorem size_flatten (pieces : List Text) : size pieces.flatten = (pieces.map size).sum := by
  induction pieces with
  | nil => rfl
  | cons p ps ih => simp [ih]

/-- Lengths that all end on boundaries cut a text into pieces. -/
theorem exists_pieces {t : Text} {ns : List Nat}
    (h : ∀ k, t.IsBoundary (ns.take k).sum) :
    ∃ (pieces : List Text) (rest : Text), t = pieces.flatten ++ rest ∧ pieces.map size = ns := by
  induction ns generalizing t with
  | nil => exact ⟨[], t, rfl, rfl⟩
  | cons n ns ih =>
    obtain ⟨a, b, rfl, hsize⟩ := h 1
    have ha : a.size = n := by simpa using hsize
    have hb (k : Nat) : b.IsBoundary (ns.take k).sum := by
      have hk := h (k + 1)
      rw [List.take_succ_cons, List.sum_cons, ← ha] at hk
      exact hk.of_append
    obtain ⟨pieces, rest, rfl, hpieces⟩ := ih hb
    exact ⟨a :: pieces, rest, by simp, by rw [List.map_cons, ha, hpieces]⟩

theorem isBoundary_sum_take (pieces : List Text) (rest : Text) (k : Nat) :
    IsBoundary (pieces.flatten ++ rest) ((pieces.map size).take k).sum := by
  refine ⟨(pieces.take k).flatten, (pieces.drop k).flatten ++ rest, ?_, ?_⟩
  · rw [← List.append_assoc, ← List.flatten_append, List.take_append_drop]
  · rw [size_flatten, List.map_take]

end Text

/-! ## Well-formed streams -/

namespace Event

/-- The stream ends every node that it starts, innermost first, and no other. -/
inductive Nested : List Event → Prop
  | nil : Nested []
  | token {kind : Kind} {field : Option Field} {leading : List Measure} {size : Nat}
      {trailing : List Measure} {es : List Event} :
      Nested es → Nested (.token kind field leading size trailing :: es)
  | node {kind : Kind} {field : Option Field} {inner es : List Event} :
      Nested inner → Nested es → Nested (.start kind field :: (inner ++ .finish :: es))

/-- The stream tells one node, with everything else inside of it. -/
def OneRoot (es : List Event) : Prop :=
  ∃ kind field inner, Nested inner ∧ es = .start kind field :: (inner ++ [.finish])

/-- The lengths of the pieces of text that an event speaks of, in source order. -/
def sizes : Event → List Nat
  | .token _ _ leading size trailing =>
    leading.map Measure.size ++ size :: trailing.map Measure.size
  | .start .. | .finish => []

/-- All pieces of text end between characters, and they reach up to the end of the text. -/
def Covers (text : Text) (es : List Event) : Prop :=
  (∀ k, text.IsBoundary ((es.flatMap sizes).take k).sum) ∧ (es.flatMap sizes).sum = text.size

theorem Nested.append {es fs : List Event} (h₁ : Nested es) (h₂ : Nested fs) :
    Nested (es ++ fs) := by
  induction h₁ with
  | nil => exact h₂
  | token _ ih => exact .token ih
  | node hinner _ _ ih =>
    rw [List.cons_append, List.append_assoc, List.cons_append]
    exact .node hinner ih

end Event

namespace Shape

mutual

theorem nested_events (s : Shape) : Event.Nested s.events := by
  cases s with
  | token kind field leading text trailing =>
    rw [events]
    exact .token .nil
  | node kind field children =>
    rw [events]
    exact .node (nested_eventsAll children) .nil

/-- The stream that tells shapes is well nested. -/
theorem nested_eventsAll (ss : List Shape) : Event.Nested (eventsAll ss) := by
  cases ss with
  | nil =>
    rw [eventsAll]
    exact .nil
  | cons s ss =>
    rw [eventsAll]
    exact (nested_events s).append (nested_eventsAll ss)

end

theorem eventsAll_append (ss ts : List Shape) :
    eventsAll (ss ++ ts) = eventsAll ss ++ eventsAll ts := by
  induction ss with
  | nil => simp [eventsAll]
  | cons s ss ih => simp [eventsAll, ih]

end Shape

theorem Trivia.flatten_eq (ts : List Trivia) : flatten ts = (ts.map Trivia.text).flatten := by
  rw [flatten, List.flatMap_def]

/-- The pieces of trivia of a token are told by their lengths. -/
theorem Trivia.sizes_measure (ts : List Trivia) :
    (ts.map Trivia.measure).map Measure.size = (ts.map Trivia.text).map Text.size := by
  simp [Trivia.measure, Function.comp_def]

namespace Shape

mutual

theorem exists_pieces_events (s : Shape) : ∃ pieces : List Text,
    pieces.map Text.size = s.events.flatMap Event.sizes ∧ pieces.flatten = s.source := by
  cases s with
  | token kind field leading text trailing =>
    refine ⟨leading.map Trivia.text ++ text :: trailing.map Trivia.text, ?_, ?_⟩
    · rw [events, List.flatMap_singleton, Event.sizes, Trivia.sizes_measure, Trivia.sizes_measure,
        List.map_append, List.map_cons]
    · rw [source, Trivia.flatten_eq, Trivia.flatten_eq]
      simp
  | node kind field children =>
    obtain ⟨pieces, hsizes, hflatten⟩ := exists_pieces_eventsAll children
    refine ⟨pieces, ?_, by rw [hflatten, source]⟩
    rw [hsizes, events]
    simp [Event.sizes]

/-- The lengths that tell shapes are those of the pieces of their source. -/
theorem exists_pieces_eventsAll (ss : List Shape) : ∃ pieces : List Text,
    pieces.map Text.size = (eventsAll ss).flatMap Event.sizes ∧ pieces.flatten = sourceAll ss := by
  cases ss with
  | nil => exact ⟨[], by simp [eventsAll], by simp [sourceAll]⟩
  | cons s ss =>
    obtain ⟨ps, hps, hp⟩ := exists_pieces_events s
    obtain ⟨qs, hqs, hq⟩ := exists_pieces_eventsAll ss
    exact ⟨ps ++ qs, by simp [eventsAll, hps, hqs], by simp [sourceAll, hp, hq]⟩

end

end Shape

/-- Pieces of text of the right lengths make the pieces of trivia that are told. -/
theorem Trivia.exists_of_sizes {ms : List Measure} {pieces : List Text}
    (h : pieces.map Text.size = ms.map Measure.size) :
    ∃ ts : List Trivia, ts.map Trivia.measure = ms ∧ flatten ts = pieces.flatten := by
  induction ms generalizing pieces with
  | nil =>
    obtain rfl : pieces = [] := by simpa using h
    exact ⟨[], rfl, rfl⟩
  | cons m ms ih =>
    rw [List.map_cons] at h
    obtain ⟨t, rest, rfl, ht, hrest⟩ := List.map_eq_cons_iff.1 h
    obtain ⟨ts, hmeasures, hflatten⟩ := ih hrest
    refine ⟨⟨m.kind, t⟩ :: ts, ?_, ?_⟩
    · simp [Trivia.measure, hmeasures, ht]
    · rw [Trivia.flatten, List.flatMap_cons, List.flatten_cons, ← hflatten, Trivia.flatten]

namespace Event

/-- A well nested stream tells some shapes over any pieces of text that have its lengths. -/
theorem Nested.exists_shapes {es : List Event} (h : Nested es) {pieces : List Text}
    (hpieces : pieces.map Text.size = es.flatMap sizes) :
    ∃ ss : List Shape, Shape.eventsAll ss = es ∧ Shape.sourceAll ss = pieces.flatten := by
  induction h generalizing pieces with
  | nil =>
    obtain rfl : pieces = [] := by simpa using hpieces
    exact ⟨[], by rw [Shape.eventsAll], by rw [Shape.sourceAll, List.flatten_nil]⟩
  | @token kind field leading size trailing es _ ih =>
    rw [List.flatMap_cons, sizes] at hpieces
    obtain ⟨own, others, rfl, hown, hothers⟩ := List.map_eq_append_iff.1 hpieces
    obtain ⟨before, more, rfl, hbefore, hmore⟩ := List.map_eq_append_iff.1 hown
    obtain ⟨text, behind, rfl, htext, hbehind⟩ := List.map_eq_cons_iff.1 hmore
    obtain ⟨ts, hts, htsource⟩ := Trivia.exists_of_sizes hbefore
    obtain ⟨us, hus, husource⟩ := Trivia.exists_of_sizes hbehind
    obtain ⟨ss, hss, hsource⟩ := ih hothers
    refine ⟨.token kind field ts text us :: ss, ?_, ?_⟩
    · rw [Shape.eventsAll, Shape.events, hts, hus, hss, htext, List.singleton_append]
    · rw [Shape.sourceAll, Shape.source, htsource, husource, hsource]
      simp
  | @node kind field inner es _ _ ihInner ihRest =>
    rw [List.flatMap_cons, List.flatMap_append, List.flatMap_cons, sizes, sizes, List.nil_append,
      List.nil_append] at hpieces
    obtain ⟨own, others, rfl, hown, hothers⟩ := List.map_eq_append_iff.1 hpieces
    obtain ⟨children, hchildren, hsource⟩ := ihInner hown
    obtain ⟨ss, hss, hrest⟩ := ihRest hothers
    refine ⟨.node kind field children :: ss, ?_, ?_⟩
    · rw [Shape.eventsAll, Shape.events, hchildren, hss]
      simp
    · rw [Shape.sourceAll, Shape.source, hsource, hrest, List.flatten_append]

/-- **A stream that tells a tree of the text is that of some root.** -/
theorem exists_stem {text : Text} {es : List Event} (hroot : OneRoot es)
    (hcovers : Covers text es) :
    ∃ root : Stem, root.shape.events = es ∧ root.shape.source = text := by
  obtain ⟨kind, field, inner, hinner, rfl⟩ := hroot
  have hsizes : (Event.start kind field :: (inner ++ [.finish])).flatMap sizes =
      inner.flatMap sizes := by
    simp [sizes]
  obtain ⟨hbounds, hsum⟩ := hcovers
  rw [hsizes] at hbounds hsum
  obtain ⟨pieces, rest, rfl, hpieces⟩ := Text.exists_pieces hbounds
  -- the pieces are as long as the text, so nothing is left behind them
  obtain rfl : rest = [] := by
    rw [← hpieces, ← Text.size_flatten, Text.size_append] at hsum
    exact Text.eq_nil_of_size (by omega)
  obtain ⟨children, hchildren, hsource⟩ := hinner.exists_shapes hpieces
  refine ⟨⟨kind, field, children.reverse⟩, ?_, ?_⟩
  · rw [Stem.shape, List.reverse_reverse, Shape.events, hchildren]
  · rw [Stem.shape, List.reverse_reverse, Shape.source, hsource, List.append_nil]

/-- The stream of a root tells a tree of its source. -/
theorem oneRoot_covers_of_stem (root : Stem) :
    OneRoot root.shape.events ∧ Covers root.shape.source root.shape.events := by
  refine ⟨⟨root.kind, root.field, Shape.eventsAll root.children.reverse,
    Shape.nested_eventsAll _, by rw [Stem.shape, Shape.events]⟩, ?_⟩
  obtain ⟨pieces, hsizes, hflatten⟩ := Shape.exists_pieces_events root.shape
  have hbound (k : Nat) := Text.isBoundary_sum_take pieces [] k
  rw [List.append_nil] at hbound
  rw [Covers, ← hsizes, ← hflatten]
  exact ⟨hbound, (Text.size_flatten pieces).symm⟩

end Event

/-! ## What the builder has heard -/

namespace Builder

/-- What comes second succeeds only where what comes first does. -/
theorem bind_eq_ok {ε α β : Type} {x : Except ε α} {f : α → Except ε β} {b : β}
    (h : x >>= f = .ok b) : ∃ a, x = .ok a ∧ f a = .ok b := by
  cases x with
  | error e => cases h
  | ok a => exact ⟨a, rfl, h⟩

theorem cut_eq_ok {rest : Text} {size : Nat} {parts : Text × Text} (h : cut rest size = .ok parts) :
    rest = parts.1 ++ parts.2 ∧ parts.1.size = size := by
  unfold cut at h
  split at h
  · rename_i found hfound
    cases h
    exact Text.splitAt?_eq_some hfound
  · cases h

theorem cutAll_eq_ok {rest : Text} {ms : List Measure} {parts : List Trivia × Text}
    (h : cutAll rest ms = .ok parts) :
    rest = Trivia.flatten parts.1 ++ parts.2 ∧ parts.1.map Trivia.measure = ms := by
  induction ms generalizing rest parts with
  | nil =>
    cases h
    exact ⟨rfl, rfl⟩
  | cons m ms ih =>
    rw [cutAll] at h
    obtain ⟨⟨part, behind⟩, hfirst, h⟩ := bind_eq_ok h
    obtain ⟨⟨others, tail⟩, hmore, h⟩ := bind_eq_ok h
    cases h
    obtain ⟨hrest, hsize⟩ := cut_eq_ok hfirst
    obtain ⟨hbehind, hmeasures⟩ := ih hmore
    refine ⟨?_, ?_⟩
    · rw [hrest, hbehind]
      simp [Trivia.flatten]
    · simp [Trivia.measure, hsize, hmeasures]

/-- A token is heard only where its text can be cut, with its trivia before and behind it. -/
theorem hear_token_eq_ok {rest : Text} {stem : Stem} {outer : List Stem} {root : Option Stem}
    {kind : Kind} {field : Option Field} {leading trailing : List Measure} {size : Nat}
    {b' : Builder}
    (h : hear ⟨rest, stem :: outer, root⟩ (.token kind field leading size trailing) = .ok b') :
    ∃ (s : Shape) (tail : Text), rest = s.source ++ tail ∧
      s.events = [.token kind field leading size trailing] ∧
      b' = ⟨tail, { stem with children := s :: stem.children } :: outer, root⟩ := by
  obtain ⟨⟨before, rest'⟩, hbefore, h⟩ := bind_eq_ok h
  obtain ⟨⟨own, rest''⟩, hown, h⟩ := bind_eq_ok h
  obtain ⟨⟨behind, tail⟩, hbehind, h⟩ := bind_eq_ok h
  cases h
  obtain ⟨hlead, hleading⟩ : rest = Trivia.flatten before ++ rest' ∧
    before.map Trivia.measure = leading := cutAll_eq_ok hbefore
  obtain ⟨htext, hsize⟩ := cut_eq_ok hown
  obtain ⟨htrail, htrailing⟩ := cutAll_eq_ok hbehind
  refine ⟨.token kind field before own behind, tail, ?_, ?_, rfl⟩
  · rw [hlead, htext, htrail, Shape.source]
    simp only [List.append_assoc]
  · rw [Shape.events, hleading, htrailing, hsize]

end Builder

/-- What an open node has told so far. -/
def Stem.told (s : Stem) : List Event :=
  .start s.kind s.field :: Shape.eventsAll s.children.reverse

/-- The text of an open node so far. -/
def Stem.source (s : Stem) : Text := Shape.sourceAll s.children.reverse

namespace Builder

/-- The builder holds just the events it has heard over the text: the open nodes have told them, or
else the finished root has. -/
inductive Heard (text : Text) : Builder → List Event → Prop
  | opened {rest : Text} {stems : List Stem} {es : List Event} :
      stems.reverse.flatMap Stem.told = es → stems.reverse.flatMap Stem.source ++ rest = text →
      Heard text ⟨rest, stems, none⟩ es
  | finished {rest : Text} {root : Stem} {es : List Event} :
      root.shape.events = es → root.shape.source ++ rest = text →
      Heard text ⟨rest, [], some root⟩ es

/-- One more child of the innermost node is heard. -/
theorem Heard.child {text rest : Text} {stem : Stem} {outer : List Stem} {es fs : List Event}
    {s : Shape} {tail : Text} (h : Heard text ⟨rest, stem :: outer, none⟩ es)
    (hrest : rest = s.source ++ tail) (hevents : s.events = fs) :
    Heard text ⟨tail, { stem with children := s :: stem.children } :: outer, none⟩ (es ++ fs) := by
  cases h with
  | opened htold hsource =>
    subst htold hsource hrest hevents
    refine .opened ?_ ?_
    · simp [Stem.told, Shape.eventsAll_append, Shape.eventsAll]
    · simp [Stem.source, Shape.sourceAll_append, Shape.sourceAll]

/-- **The builder holds what it has heard**, event by event. -/
theorem Heard.hear {text : Text} {b b' : Builder} {es : List Event} {e : Event}
    (h : Heard text b es) (he : b.hear e = .ok b') : Heard text b' (es ++ [e]) := by
  cases e with
  | start kind field =>
    cases h with
    | @opened rest stems _ htold hsource =>
      subst htold hsource
      have hb : b' = ⟨rest, ⟨kind, field, []⟩ :: stems, none⟩ := by
        cases stems <;> exact (Except.ok.inj he).symm
      subst hb
      exact .opened (by simp [Stem.told, Shape.eventsAll]) (by simp [Stem.source, Shape.sourceAll])
    | finished htold hsource => cases he
  | token kind field leading size trailing =>
    cases h with
    | finished htold hsource => cases he
    | @opened rest stems _ htold hsource =>
      cases stems with
      | nil => cases he
      | cons stem outer =>
        obtain ⟨s, tail, hrest, hevents, rfl⟩ := hear_token_eq_ok he
        exact (Heard.opened htold hsource).child hrest hevents
  | finish =>
    cases h with
    | finished htold hsource => cases he
    | @opened rest stems _ htold hsource =>
      match stems, he with
      | [], he => cases he
      | [stem], he =>
        cases he
        subst htold hsource
        refine .finished ?_ ?_
        · simp [Stem.shape, Stem.told, Shape.events]
        · simp [Stem.shape, Stem.source, Shape.source]
      | stem :: parent :: outer, he =>
        cases he
        subst htold hsource
        refine .opened ?_ ?_
        · simp [Stem.told, Stem.shape, Shape.eventsAll_append, Shape.eventsAll, Shape.events]
        · simp [Stem.source, Stem.shape, Shape.sourceAll_append, Shape.sourceAll, Shape.source]

theorem Heard.run {text : Text} {b b' : Builder} {es fs : List Event} {heard : Nat}
    (h : Heard text b es) (hrun : run b fs heard = .ok b') : Heard text b' (es ++ fs) := by
  induction fs generalizing b es heard with
  | nil =>
    cases hrun
    rwa [List.append_nil]
  | cons f fs ih =>
    rw [Builder.run] at hrun
    split at hrun
    · rename_i c hc
      have := ih (h.hear hc) hrun
      rwa [List.append_assoc, List.singleton_append] at this
    · cases hrun

end Builder

/-- **An accepted stream is that of its root**, over the source of that root, and the tree is the
root laid out. -/
theorem Tree.ofEvents?_eq_ok {text : Text} {events : List Event} {tree : Tree} :
    Tree.ofEvents? text events = .ok tree ↔
      ∃ root : Stem, root.shape.events = events ∧ root.shape.source = text ∧
        tree = Tree.ofStem text root := by
  constructor
  · intro h
    rw [Tree.ofEvents?] at h
    cases hrun : Builder.run ⟨text, [], none⟩ events 0 with
    | error e =>
      rw [hrun] at h
      cases h
    | ok b =>
      rw [hrun] at h
      have hempty : Builder.Heard text ⟨text, [], none⟩ [] := .opened rfl rfl
      have hheard := hempty.run hrun
      rw [List.nil_append] at hheard
      simp only [Except.mapError, bind, Except.bind] at h
      cases hheard with
      | @opened rest stems _ htold hsource =>
        cases stems with
        | nil => cases h
        | cons stem outer => cases h
      | @finished rest root _ htold hsource =>
        cases rest with
        | cons c cs => cases h
        | nil =>
          cases h
          exact ⟨root, htold, by rw [← hsource, List.append_nil], rfl⟩
  · rintro ⟨root, rfl, rfl, rfl⟩
    have hbuild := Tree.ofEvents?_eventsAll root.kind root.field root.children.reverse
    rw [Shape.eventsAll, Shape.eventsAll, List.append_nil, List.reverse_reverse] at hbuild
    rw [Stem.shape, Shape.source]
    exact hbuild

end ActionScript
